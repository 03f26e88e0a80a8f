import HighHalf.Frames.Error

/-!
# Why a mapping request fails
-/

namespace HighHalf

/-- Why a mapping request was not carried out. -/
inductive MapError where
  /-- Nothing is mapped at the address. -/
  | unmapped
  /-- No frame for a table. -/
  | outOfFrames
  /-- An address is not page aligned. -/
  | misaligned
  /-- The range ends before it starts, or crosses from one half into the other. -/
  | badRange
  /-- The flag word is not a complete leaf. -/
  | badFlags
  /-- Something that is no table stands where the walk needs one. -/
  | blocked
  /-- The low half is not walked any more. -/
  | lowHalfRetired
  /-- The address space has not been brought up. -/
  | notReady
  /-- The frame store refused. -/
  | frames (cause : FrameError)
deriving DecidableEq, Repr, Inhabited

namespace MapError

/-- The text shown for a failure. -/
def message : MapError → String
  | unmapped => "virtual address not mapped"
  | outOfFrames => "out of memory for page tables"
  | misaligned => "address not properly aligned"
  | badRange => "invalid virtual range"
  | badFlags => "flags are not a leaf descriptor"
  | blocked => "non-table descriptor blocks the walk"
  | lowHalfRetired => "low half no longer translated"
  | notReady => "address space not initialized"
  | frames cause => s!"frame allocator: {cause}"

instance : ToString MapError := ⟨message⟩

end MapError

end HighHalf
