import HighHalf.Register
import HighHalf.Word

/-!
# The processor

The processor keeps the system registers. What a read gives need not be what was written: the
answer depends on the register, on how many reads of it came before and on the stored value.
A healthy processor answers with the stored value. Relocating execution, and the question where
an object is reached from the high half, are answered by the processor as well.
-/

namespace HighHalf

/-- Shareability domain of a data barrier. -/
inductive Shareability where
  /-- The full system. -/
  | system
  /-- The inner shareable domain. -/
  | inner
  /-- This core only. -/
  | core
deriving DecidableEq, Repr, Inhabited

/-- Where the high half shows the object that is found at `a` in the low half, for a
displacement that has only high bits. -/
def highAlias (a displacement : Word) : Word := a ||| displacement

/-- How a processor answers. -/
structure Behaviour where
  /-- What read number `n` of a register gives, from the stored value. -/
  readback : Register → Nat → Word → Word
  /-- The stack pointer. -/
  stackPointer : Word
  /-- How far execution is really moved when asked for a displacement. -/
  moved : Word → Word
  /-- Where the object at an address is reached after a displacement. -/
  aliasAt : Word → Word → Word

namespace Behaviour

/-- Reads give what was stored, execution moves as asked, and the high half shows every object
at its high alias. -/
def healthy (stackPointer : Word) : Behaviour where
  readback _ _ v := v
  stackPointer := stackPointer
  moved d := d
  aliasAt := highAlias

end Behaviour

/-- A defect in reading a register: from read number `since` on the answer differs in the bits
of `mask`. -/
structure ReadDefect where
  register : Register
  mask : Word
  since : Nat
deriving DecidableEq, Repr, Inhabited

/-- The answer of a register read under a list of defects, which combine. -/
def ReadDefect.disturb (defects : List ReadDefect) (r : Register) (n : Nat) (v : Word) : Word :=
  defects.foldl (fun v d => if d.register = r ∧ d.since ≤ n then v ^^^ d.mask else v) v

/-- A processor: its registers, how often each was read, and how it answers. -/
structure Processor where
  registers : PerRegister Word
  reads : PerRegister Nat
  behaviour : Behaviour

namespace Processor

/-- A processor that has not been asked anything yet. -/
def fresh (registers : PerRegister Word) (behaviour : Behaviour) : Processor where
  registers := registers
  reads := .all 0
  behaviour := behaviour

/-- What the next read of `r` gives. -/
def answer (p : Processor) (r : Register) : Word :=
  p.behaviour.readback r (p.reads.get r) (p.registers.get r)

/-- The processor after one more read of `r`. -/
def countRead (p : Processor) (r : Register) : Processor :=
  { p with reads := p.reads.set r (p.reads.get r + 1) }

/-- The processor after a write. -/
def write (p : Processor) (r : Register) (v : Word) : Processor :=
  { p with registers := p.registers.set r v }

end Processor

end HighHalf
