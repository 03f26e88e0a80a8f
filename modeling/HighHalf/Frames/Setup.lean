import HighHalf.Frames.Basic

/-!
# Setting up the frame store

The bitmap is placed on the first page boundary after the image. Everything from the start of
the managed range to the page-rounded end of the bitmap is reserved; the bits past the last
frame in the last byte of the bitmap are set once and for all.
-/

namespace HighHalf

namespace Memory

/-- Mark `n` frames from `i` on as used. -/
def markRun (i : Nat) : Nat → MemoryM Unit
  | 0 => pure ()
  | n + 1 => do
    mark i true
    markRun (i + 1) n

/-- Where the bitmap begins and where its last page ends, for an image that ends at `stop`. -/
def bitmapPlace (stop : PhysAddr) (bytes : Nat) : Except Fatal PhysRange := do
  let start ← stop.ceil
  return ⟨start, ← (← start.add (UInt64.ofNat bytes)).ceil⟩

/-- Set up the frame store around `image`. A store that is set up stays as it is. -/
def setup (image : PhysRange) : MemoryM (Except FrameError Unit) := do
  let f := (← get).frames
  if f.ready then return .ok ()
  if !f.region.contains image.start || image.stop.val < image.start.val then
    return .error .imageOutside
  let total := (f.region.size >>> pageShift).toNat
  let bytes := (total + 7) / 8
  let place ← bitmapPlace image.stop bytes
  if f.region.stop.val < place.stop.val then
    let gap := place.debug
    let top := f.region.stop.val.hex
    Board.note .warn .frames s!"bitmap {gap} does not fit below {top}"
    return .error .bitmapOutside
  updateFrames fun f => { f with bitmap := place.start, bitmapSize := bytes, total := total }
  Board.store (.clear (f.window.reach place.start) bytes)
  markRun total (bytes * 8 - total)
  let owned := f.indexOf place.start
  let reserved := f.indexOf place.stop
  markRun 0 reserved
  updateFrames fun f =>
    { f with image := owned, reserved := reserved, free := total - reserved, ready := true }
  let region := f.region.debug
  Board.note .info .frames
    s!"managing {region}: {total} frames, {reserved} reserved, bitmap at {place.start} ({bytes} bytes)"
  return .ok ()

end Memory

end HighHalf
