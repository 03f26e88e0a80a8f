import HighHalf.Board.Basic
import HighHalf.Frames.Error
import HighHalf.Frames.Ring

/-!
# The frame store

The frame store hands out the frames of one range of RAM. A bitmap in that RAM has one bit for
each frame, set while the frame is used; frames from the start of the range to the end of the
bitmap are reserved for good. Some frames can be parked for tables: they are used, but nobody
holds them yet.

`Memory` is the board with the frame store over its RAM, and a `MemoryM` action is a step that
acts on both.

## Main definitions

* `Memory.marked`: whether the bitmap marks a frame
* `Memory.mark`: set or clear a bit of the bitmap
* `Memory.isUsed`: whether an address is taken, as callers see it
-/

namespace HighHalf

/-- Most frames that are ever parked for tables. -/
def parkLimit : Nat := 128

/-- How many events the frame store remembers. -/
def recentLimit : Nat := 32

/-- Counters of the frame store. The kernel keeps each in a word of 64 bits. They grow by one a
request, so no run is long enough to fill one, and here they have no bound. -/
structure FrameStats where
  /-- Frames handed out or parked since the start. -/
  allocations : Nat := 0
  /-- Frames given back since the start. -/
  frees : Nat := 0
  /-- Frames handed out or parked now. -/
  current : Nat := 0
  /-- The largest `current` so far. -/
  peak : Nat := 0
  /-- Requests for which no frame was free. -/
  failed : Nat := 0
deriving DecidableEq, Repr, Inhabited

/-- A frame was taken, or given back. -/
inductive FrameEvent where
  | alloc (p : PhysAddr)
  | free (p : PhysAddr)
deriving DecidableEq, Repr, Inhabited

namespace FrameEvent

/-- The frame that was taken or given back. -/
def addr : FrameEvent → PhysAddr
  | alloc p => p
  | free p => p

/-- The name shown for what happened. -/
def name : FrameEvent → String
  | alloc _ => "Alloc"
  | free _ => "Free"

end FrameEvent

/-- The frame store. -/
structure Frames where
  /-- The managed range. -/
  region : PhysRange
  /-- How RAM is reached. -/
  window : Window
  /-- Where the bitmap lies. -/
  bitmap : PhysAddr := ⟨0⟩
  /-- Bytes in the bitmap. -/
  bitmapSize : Nat := 0
  /-- Whole frames in the range. -/
  total : Nat := 0
  /-- Frames from the start of the range that are never handed out. -/
  reserved : Nat := 0
  /-- Frames from the start of the range that belong to the image. -/
  image : Nat := 0
  /-- Free frames. -/
  free : Nat := 0
  /-- Every frame parked so far, in the order of parking. -/
  parked : Array PhysAddr := #[]
  /-- How many of the parked frames have been drawn. -/
  drawn : Nat := 0
  stats : FrameStats := {}
  /-- What happened last. -/
  recent : Ring FrameEvent recentLimit := .empty
  /-- Whether the store has been set up. -/
  ready : Bool := false

namespace Frames

/-- Parked frames that have not been drawn yet. -/
def waiting (f : Frames) : Nat := f.parked.size - f.drawn

/-- The parked frames that have not been drawn yet, the next one first. -/
def pool (f : Frames) : List PhysAddr := f.parked.toList.drop f.drawn

/-- Number of the frame that holds `p`, counted from the start of the range. -/
def indexOf (f : Frames) (p : PhysAddr) : Nat :=
  ((p.val - f.region.start.val) >>> pageShift).toNat

/-- First byte of frame `i`. -/
def addrOf (f : Frames) (i : Nat) : PhysAddr :=
  ⟨f.region.start.val + UInt64.ofNat (4096 * i)⟩

/-- Where byte `i` of the bitmap is reached. -/
def bitmapByte (f : Frames) (i : Nat) : Word := f.window.reach f.bitmap + UInt64.ofNat i

/-- Remember an event. -/
def remember (f : Frames) (e : FrameEvent) : Frames := { f with recent := f.recent.push e }

end Frames

/-! ## The board and its frames -/

/-- The board together with the frame store over its RAM. -/
structure Memory where
  board : Board
  frames : Frames

/-- A step of the kernel that acts on the board and the frame store. -/
abbrev MemoryM := EStateM Fatal Memory

namespace Memory

/-- A step on the board, with the frame store left alone. -/
def onBoard {α : Type} (x : BoardM α) : MemoryM α := fun ⟨board, frames⟩ =>
  match x board with
  | .ok a board => .ok a ⟨board, frames⟩
  | .error e board => .error e ⟨board, frames⟩

instance : MonadLift BoardM MemoryM := ⟨onBoard⟩

/-- A step on the board that may be refused, with the frame store left alone. -/
def request {ε α : Type} (x : ExceptT ε BoardM α) : ExceptT ε MemoryM α :=
  ExceptT.mk (onBoard x.run)

/-- A step on the frame store, with the board left alone. -/
def updateFrames (g : Frames → Frames) : MemoryM Unit := fun ⟨board, frames⟩ =>
  .ok () ⟨board, g frames⟩

/-! ## The bitmap -/

/-- Byte `i` of the bitmap. -/
def bitmapByte (m : Memory) (i : Nat) : UInt8 := m.board.ram.byte (m.frames.bitmapByte i)

/-- Whether the bitmap marks frame `i`; a frame past the bitmap counts as marked. -/
def marked (m : Memory) (i : Nat) : Bool :=
  if i / 8 < m.frames.bitmapSize then (m.bitmapByte (i / 8) >>> UInt8.ofNat (i % 8)) &&& 1 = 1
  else true

/-- Set or clear the bit of frame `i`; a frame past the bitmap has none. -/
def mark (i : Nat) (used : Bool) : MemoryM Unit := do
  let f := (← get).frames
  if i / 8 < f.bitmapSize then
    let old := (← get).bitmapByte (i / 8)
    let bit : UInt8 := 1 <<< UInt8.ofNat (i % 8)
    let new := if used then old ||| bit else old &&& ~~~bit
    Board.store (.byte (f.bitmapByte (i / 8)) new)

/-- Whether `p` is taken. Addresses outside the managed range are. -/
def isUsed (m : Memory) (p : PhysAddr) : Bool :=
  if m.frames.ready && m.frames.region.contains p then m.marked (m.frames.indexOf p) else true

/-- Shift the window by `d`, because the kernel now reaches RAM `d` bytes higher. -/
def shiftWindow (d : Word) : MemoryM Unit := do
  updateFrames fun f => { f with window := f.window.shifted d }
  let w := (← get).frames.window.debug
  Board.note .debug .frames s!"physical window now {w}"

end Memory

end HighHalf
