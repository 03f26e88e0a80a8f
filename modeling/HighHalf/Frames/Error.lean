/-!
# Why the frame store refuses

Refusals are answers: none of them changes the store.
-/

namespace HighHalf

/-- Why a request to the frame store was refused. -/
inductive FrameError where
  /-- The store has not been set up. -/
  | notReady
  /-- The kernel image does not start inside the managed range, or ends before it starts. -/
  | imageOutside
  /-- The bitmap would reach past the end of the managed range. -/
  | bitmapOutside
  /-- The address is not page aligned. -/
  | misaligned
  /-- The address is outside the managed range. -/
  | outside
  /-- The frame holds the kernel image, the bitmap or a parked table page. -/
  | reserved
  /-- The frame is free already. -/
  | alreadyFree
deriving DecidableEq, Repr, Inhabited

namespace FrameError

/-- The text shown for a refusal. -/
def message : FrameError → String
  | notReady => "frame allocator not initialized"
  | imageOutside => "kernel image outside managed memory"
  | bitmapOutside => "bitmap does not fit in managed memory"
  | misaligned => "address not page aligned"
  | outside => "address outside managed memory"
  | reserved => "frame is reserved"
  | alreadyFree => "frame already free"

instance : ToString FrameError := ⟨message⟩

end FrameError

end HighHalf
