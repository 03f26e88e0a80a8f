import HighHalf.Frames.Error
import HighHalf.Register
import HighHalf.Transition.Phase
import HighHalf.Word

/-!
# Fatal stops

Where going on would corrupt memory silently the kernel stops. A stop is an answer like any
other: it carries its cause, and what was done before it stays done.

A step without a meaning ends a run too. That is no answer of the kernel: nothing is promised
about what a machine does there, and so nothing that is said about a run goes beyond it.

## Main definitions

* `Undefined`: the steps without a meaning
* `Fatal`: why a run stopped
* `Word.add`, `Word.sub`, `Phase.advance`: steps that may stop
-/

namespace HighHalf

/-- A step without a meaning. -/
inductive Undefined where
  /-- Relocation records were to be read where there is no RAM. -/
  | recordsOutsideRam (table : Word)
  /-- A word among the relocation records was to be written while they are lent to the loop that
  reads them. A reader of lent memory may keep what it has read, so what it sees after such a write
  is open. -/
  | recordOverwritten (slot : Word)
deriving DecidableEq, Repr

namespace Undefined

/-- What is shown for a step without a meaning. -/
def message : Undefined → String
  | recordsOutsideRam table => s!"undefined: relocation records at {table.hex16} outside RAM"
  | recordOverwritten slot => s!"undefined: write to lent relocation record at {slot.hex16}"

end Undefined

/-- Why the kernel stopped. -/
inductive Fatal where
  /-- A sum left 64 bits. -/
  | addOverflow
  /-- A difference was negative. -/
  | subOverflow
  /-- A table was indexed past its last entry. -/
  | indexOutOfBounds (size index : Nat)
  /-- A physical address of more than 48 bits. -/
  | addressTooWide
  /-- A table descriptor for an address that is not page aligned. -/
  | tableMisaligned
  /-- A page descriptor for an address that is not page aligned. -/
  | pageMisaligned
  /-- A page descriptor without kind bits or access flag. -/
  | pageFlagsIncomplete
  /-- A page descriptor whose flag word holds address bits. -/
  | pageFlagsHoldAddress
  /-- A table descriptor was about to replace a leaf. -/
  | tableOverLeaf (index : Nat)
  /-- A leaf was to be written with a flag word that is not a complete leaf. -/
  | leafFlagsIncomplete (flags : Word)
  /-- A register did not hold what was written to it. -/
  | readback (register : Register) (wrote read : Word)
  /-- Address resolution was off where the high alias should have been reached. -/
  | resolvingOff (sctlr : Word)
  /-- A step between phases that is not allowed. -/
  | illegalStep (source target : Phase)
  /-- The frame store could not be set up. -/
  | noFrames (cause : FrameError)
  /-- An access outside the RAM of a sample board. -/
  | outsideRam (address : Word)
  /-- The run has no meaning from here on. -/
  | undefined (cause : Undefined)
deriving DecidableEq, Repr

namespace Fatal

/-- The text a stop leaves behind. -/
def message : Fatal → String
  | addOverflow => "attempt to add with overflow"
  | subOverflow => "attempt to subtract with overflow"
  | indexOutOfBounds size index =>
    s!"index out of bounds: the len is {size} but the index is {index}"
  | addressTooWide => "assertion failed: addr <= 0x0000_FFFF_FFFF_FFFF"
  | tableMisaligned => "assertion failed: next_table_phys.is_aligned()"
  | pageMisaligned => "assertion failed: phys.is_aligned()"
  | pageFlagsIncomplete => "assertion failed: flags.is_leaf()"
  | pageFlagsHoldAddress => "assertion failed: flags.bits() & Self::ADDR_MASK == 0"
  | tableOverLeaf index => s!"table descriptor over leaf at index {index}"
  | leafFlagsIncomplete flags => s!"leaf flags missing kind or AF: PageFlags({flags.hex16})"
  | readback register wrote read =>
    s!"{register} readback mismatch: wrote {wrote.hex16}, read {read.hex16}"
  | resolvingOff sctlr => s!"MMU off at continuation point (SCTLR_EL1 = {sctlr.hex16})"
  | illegalStep source target => s!"illegal bootstrap transition {source} -> {target}"
  | noFrames cause => s!"frame allocator init failed: {cause}"
  | outsideRam address => s!"{address.hex16} outside test memory"
  | undefined cause => cause.message

end Fatal

/-- A check that may stop the kernel is a step of any kind of run. -/
instance {σ : Type} : MonadLift (Except Fatal) (EStateM Fatal σ) where
  monadLift x := match x with
    | .ok a => pure a
    | .error e => throw e

/-- The sum of two words, or a stop. -/
def Word.add (a b : Word) : Except Fatal Word :=
  match a.add? b with
  | some sum => .ok sum
  | none => .error .addOverflow

/-- The difference of two words, or a stop. -/
def Word.sub (a b : Word) : Except Fatal Word :=
  match a.sub? b with
  | some difference => .ok difference
  | none => .error .subOverflow

theorem Word.add_eq_ok_iff {a b c : Word} :
    Word.add a b = .ok c ↔ c.toNat = a.toNat + b.toNat := by
  unfold Word.add
  rw [← Word.add?_eq_some_iff]
  split <;> simp_all

theorem Word.sub_eq_ok_iff {a b c : Word} :
    Word.sub a b = .ok c ↔ a.toNat = b.toNat + c.toNat := by
  unfold Word.sub
  rw [← Word.sub?_eq_some_iff]
  split <;> simp_all

namespace Phase

/-- Step from `p` to `q`; a step that is not allowed is fatal. -/
def advance (p q : Phase) : Except Fatal Phase :=
  if p.allows q then .ok q else .error (.illegalStep p q)

end Phase

end HighHalf
