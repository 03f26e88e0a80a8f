import HighHalf.Descriptor.Flags
import HighHalf.Platform
import HighHalf.Register

/-!
# Values of the control registers

The attribute register gives each memory type its byte; the control register fixes granule,
sizes, cacheability and shareability of both walks. The two ways of walking differ in one bit.
-/

namespace HighHalf

/-- Which halves are walked. -/
inductive Walks where
  /-- Both halves. -/
  | dual
  /-- The high half only. -/
  | highOnly
deriving DecidableEq, Repr, Inhabited

namespace Walks

/-- The name shown for a way of walking. -/
def name : Walks → String
  | dual => "Dual"
  | highOnly => "KernelOnly"

end Walks

namespace Control

/-! ## Bits of the control register -/

/-- No walks of the low half. -/
def noLowWalks : Word := Word.field 1 7
/-- The high root selects the address space identifier. -/
def identifierFromHigh : Word := Word.field 1 22
/-- No walks of the high half. -/
def noHighWalks : Word := Word.field 1 23
/-- Address space identifiers have 16 bits. -/
def wideIdentifiers : Word := Word.field 1 36
/-- The top byte of low addresses is ignored. -/
def ignoreTopLow : Word := Word.field 1 37
/-- The top byte of high addresses is ignored. -/
def ignoreTopHigh : Word := Word.field 1 38

/-! ## Bits of the system control register -/

/-- Address resolution is on. -/
def resolving : Word := Word.field 1 0
/-- Alignment is checked. -/
def alignmentCheck : Word := Word.field 1 1
/-- Data may be cached. -/
def dataCache : Word := Word.field 1 2
/-- Instructions may be cached. -/
def instructionCache : Word := Word.field 1 12
/-- What is writable is not executable. -/
def writeExcludesExecute : Word := Word.field 1 19

/-! ## Whole registers -/

/-- The attribute register: the byte of each programmed memory type in its slot. -/
def attributes : Word :=
  MemoryType.programmed.foldl (fun w t => w ||| Word.field t.encoding (8 * t.index)) 0

/-- Write-back cacheable walks in the inner shareable domain, as the control register says it
for the half whose fields begin at bit `base`. -/
def walkFields (base : Word) : Word :=
  Word.field 1 (base + 8) ||| Word.field 1 (base + 10) ||| Word.field 3 (base + 12)

/-- The control register: 4 KiB granule in both halves, 40-bit physical addresses, top bytes
ignored, 8-bit identifiers. -/
def walkControl (width : VaWidth) (walks : Walks) : Word :=
  let base := width.unresolved ||| walkFields 0 ||| Word.field width.unresolved 16 ||| walkFields 16
    ||| Word.field 2 30 ||| Word.field 2 32 ||| ignoreTopLow ||| ignoreTopHigh
  match walks with
  | .dual => base
  | .highOnly => base ||| noLowWalks

/-- Change nothing of a control register value but which halves are walked. -/
def withWalks (value : Word) : Walks → Word
  | .dual => value &&& ~~~(noLowWalks ||| noHighWalks)
  | .highOnly => (value ||| noLowWalks) &&& ~~~noHighWalks

/-- The two ways of walking differ in one bit. -/
theorem walkControl_xor (width : VaWidth) :
    walkControl width .dual ^^^ walkControl width .highOnly = noLowWalks := by
  cases width <;> decide

end Control

end HighHalf
