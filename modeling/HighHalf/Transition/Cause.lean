import HighHalf.Control.Sequence
import HighHalf.Relocation
import HighHalf.Tables.Error

/-!
# Why the move is given up

While address resolution is off the move can be given up: nothing has been lost then, and the
kernel goes on with physical addresses.
-/

namespace HighHalf

/-- Why the move to the high half was given up. -/
inductive Cause where
  /-- Only four-level trees can be built. -/
  | unsupportedWidth (width : VaWidth)
  /-- No frame for a root table. -/
  | noRootFrame
  /-- A region could not be mapped. -/
  | mapping (region : String) (error : MapError)
  /-- An alias of a page does not show that page. -/
  | aliasMismatch (region : String) (v : VirtAddr)
  /-- Code that runs during the move is mapped as not executable. -/
  | notExecutable (region : String)
  /-- The stack pointer is outside the boot stack. -/
  | stackOutside (sp : Word)
  /-- The root tables were refused. -/
  | bases (error : BaseError)
  /-- The image holds pointers that cannot be moved. -/
  | relocation (error : RelocError)
deriving DecidableEq, Repr, Inhabited

namespace Cause

/-- The text shown for a cause. -/
def message : Cause → String
  | unsupportedWidth width => s!"{width.bits}-bit VA not supported"
  | noRootFrame => "no frame for a root table"
  | mapping region error => s!"mapping '{region}': {error}"
  | aliasMismatch region v => s!"'{region}' aliases disagree at {v}"
  | notExecutable region => s!"'{region}' is not executable"
  | stackOutside sp => s!"sp {sp.hex} outside boot stack"
  | bases error => error.message
  | relocation error => error.message

instance : ToString Cause := ⟨message⟩

end Cause

/-- A move given up, and in which phase. -/
structure Abort where
  phase : Phase
  cause : Cause
deriving DecidableEq, Repr, Inhabited

namespace Abort

/-- The text shown for a move given up. -/
def message (a : Abort) : String := s!"bootstrap aborted in {a.phase}: {a.cause}"

instance : ToString Abort := ⟨message⟩

end Abort

end HighHalf
