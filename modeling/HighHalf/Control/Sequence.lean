import HighHalf.Board.Basic
import HighHalf.Control.Encoding

/-!
# Writing the control registers

The registers that resolve addresses depend on each other at every moment, so they are written
in one fixed order, from here only. Every write is read back, and a register that does not hold
what was written is fatal: going on with half of a change would corrupt memory silently.

Dropping cached resolutions is local to this core.
-/

namespace HighHalf

/-- Why the table bases were refused. -/
inductive BaseError where
  /-- A base is not page aligned. -/
  | misaligned (register : Register) (base : PhysAddr)
deriving DecidableEq, Repr, Inhabited

namespace BaseError

/-- The text shown for a refusal. -/
def message : BaseError → String
  | misaligned register base => s!"{register} base {base} is not 4KB aligned"

instance : ToString BaseError := ⟨message⟩

end BaseError

namespace Control

/-- Write `v` to `r`. No barrier. -/
def write (r : Register) (v : Word) : BoardM Unit := do
  let shown := v.hex16
  Board.note .trace .control s!"{r} <- {shown}"
  Board.writeRegister r v

/-- Read `r` back; what differs from `wrote` under `mask` is fatal. -/
def verify (r : Register) (wrote mask : Word) : BoardM Unit := do
  let read ← Board.readRegister r
  if read &&& mask ≠ wrote &&& mask then
    let stop := Fatal.readback r wrote read
    Board.note .error .control stop.message
    throw stop

/-- All bits of a register. -/
def allBits : Word := 0xFFFFFFFFFFFFFFFF

/-- Write `v` to `r`, let it take effect, and read it back whole. -/
def writeVerified (r : Register) (v : Word) : BoardM Unit := do
  write r v
  Board.isb
  verify r v allBits

/-- Program the memory types. -/
def programAttributes : BoardM Unit := writeVerified .mair attributes

/-- Program the walks. -/
def programWalks (width : VaWidth) (walks : Walks) : BoardM Unit := do
  let v := walkControl width walks
  writeVerified .tcr v
  let shown := v.hex16
  Board.note .debug .control s!"TCR_EL1 = {shown} ({walks.name}, {width.bits}-bit VA)"

/-- The first of the two bases that is not page aligned. -/
def misalignedBase? (low high : PhysAddr) : Option BaseError :=
  if !low.aligned then some (.misaligned .ttbr0 low)
  else if !high.aligned then some (.misaligned .ttbr1 high)
  else none

/-- Point the two halves at their root tables. A base that is not aligned is refused before
either register is written. -/
def setRoots (low high : PhysAddr) : ExceptT BaseError BoardM Unit := do
  if let some (.misaligned r base) := misalignedBase? low high then
    Board.note .error .control s!"refusing {r} base {base}"
    throw (.misaligned r base)
  write .ttbr0 low.val
  write .ttbr1 high.val
  Board.isb
  verify .ttbr0 low.val allBits
  verify .ttbr1 high.val allBits

/-- Drop all cached resolutions of this core, between the barriers that this needs. -/
def dropCached : BoardM Unit := do
  Board.dsb .system
  Board.tlbi
  Board.dsb .core
  Board.isb

/-- Turn address resolution on and change nothing else. -/
def enable : BoardM Unit := do
  let before ← Board.readRegister .sctlr
  let v := before ||| resolving
  write .sctlr v
  Board.isb
  verify .sctlr v resolving

/-- Whether address resolution is on. -/
def isResolving : BoardM Bool := do
  return (← Board.readRegister .sctlr) &&& resolving = resolving

/-- The whole sequence from programming the registers to address resolution being on. -/
def apply (low high : PhysAddr) (width : VaWidth) (walks : Walks) :
    ExceptT BaseError BoardM Unit := do
  programAttributes
  programWalks width walks
  setRoots low high
  Board.dsb .system
  Board.isb
  dropCached
  enable
  Board.isb
  Board.dsb .system
  Board.isb
  Board.note .info .control s!"translation on ({walks.name}): TTBR0={low} TTBR1={high}"

/-- Change which halves are walked and keep every other field. -/
def switchWalks (walks : Walks) : BoardM Unit := do
  let before ← Board.readRegister .tcr
  writeVerified .tcr (withWalks before walks)

/-- Put the exception vectors at `a`. -/
def setVectors (a : Word) : BoardM Unit := writeVerified .vbar a

end Control

end HighHalf
