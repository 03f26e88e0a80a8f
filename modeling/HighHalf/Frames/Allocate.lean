import HighHalf.Frames.Basic

/-!
# Handing out frames

The first free frame of the range is handed out, zeroed. Frames for tables come from the parked
ones while there are any. A frame given back must be one that was handed out; refusals change
nothing.

## Main definitions

* `Memory.allocate`, `Memory.release`: take a frame, give it back
* `Memory.park`, `Memory.allocateTable`: set frames aside for tables, draw them again
-/

namespace HighHalf

/-! ## First fit -/

/-- The lowest clear bit of a byte. -/
def clearBit? (b : UInt8) : Option Nat :=
  (List.range 8).find? fun i => (b >>> UInt8.ofNat i) &&& 1 = 0

/-- The lowest clear bit below `total` in the bytes `byte i, byte (i + 1), …`, of which `n` are
left. Bytes without a clear bit are passed over. -/
def firstClear (byte : Nat → UInt8) (total : Nat) (i : Nat) : Nat → Option Nat
  | 0 => none
  | n + 1 =>
    if byte i = 0xFF then firstClear byte total (i + 1) n
    else
      match clearBit? (byte i) with
      | some k => if i * 8 + k < total then some (i * 8 + k) else firstClear byte total (i + 1) n
      | none => firstClear byte total (i + 1) n

namespace Memory

/-- The lowest frame that the bitmap does not mark. -/
def firstFree (m : Memory) : Option Nat :=
  firstClear m.bitmapByte m.frames.total 0 m.frames.bitmapSize

/-- Mark the lowest free frame as used. Its contents stay as they are. -/
def claim : MemoryM (Option PhysAddr) := do
  let f := (← get).frames
  if !f.ready || f.free = 0 then return none
  match (← get).firstFree with
  | none => return none
  | some i =>
    mark i true
    updateFrames fun f => { f with free := f.free - 1 }
    return some (f.addrOf i)

/-- Zero the frame at `p`. -/
def zero (p : PhysAddr) : MemoryM Unit := do
  let w := (← get).frames.window
  Board.store (.clear (w.reach p) 4096)

/-- Count and remember a frame that was taken. -/
def countAlloc (p : PhysAddr) : MemoryM Unit :=
  updateFrames fun f =>
    let current := f.stats.current + 1
    { f with
      stats := { f.stats with
        allocations := f.stats.allocations + 1
        current := current
        peak := max f.stats.peak current } }.remember (.alloc p)

/-! ## Taking and giving back -/

/-- Take a zeroed frame. -/
def allocate : MemoryM (Option PhysAddr) := do
  match ← claim with
  | none =>
    updateFrames fun f => { f with stats := { f.stats with failed := f.stats.failed + 1 } }
    let failed := (← get).frames.stats.failed
    Board.note .warn .frames s!"out of physical frames ({failed} failed requests so far)"
    return none
  | some p =>
    zero p
    countAlloc p
    return some p

/-- Why the frame at `p` cannot be given back, if it cannot. -/
def refusal (m : Memory) (p : PhysAddr) : Option FrameError :=
  let f := m.frames
  if !f.ready then some .notReady
  else if !p.aligned then some .misaligned
  else if !f.region.contains p then some .outside
  else if f.indexOf p < f.reserved || f.pool.contains p then some .reserved
  else if !m.marked (f.indexOf p) then some .alreadyFree
  else none

/-- Give the frame at `p` back. -/
def release (p : PhysAddr) : MemoryM (Except FrameError Unit) := do
  match (← get).refusal p with
  | some e =>
    Board.note .warn .frames s!"refusing to free {p}: {e}"
    return .error e
  | none =>
    let i := (← get).frames.indexOf p
    mark i false
    updateFrames fun f =>
      { f with
        free := f.free + 1
        stats := { f.stats with
          frees := f.stats.frees + 1
          current := f.stats.current - 1 } }.remember (.free p)
    return .ok ()

/-! ## Many at once -/

/-- What came of a series of requests for frames. -/
structure Taken where
  /-- How many were granted. -/
  count : Nat := 0
  first : Option PhysAddr := none
  last : Option PhysAddr := none
deriving DecidableEq, Repr, Inhabited

/-- One more frame granted. -/
def Taken.push (t : Taken) (p : PhysAddr) : Taken := ⟨t.count + 1, t.first <|> some p, some p⟩

/-- Make up to `n` requests after those in `t`, and stop at the first that is not granted. -/
def takeAfter (request : MemoryM (Option PhysAddr)) (t : Taken) : Nat → MemoryM Taken
  | 0 => return t
  | n + 1 => do
    match ← request with
    | none => return t
    | some p => takeAfter request (t.push p) n

/-- Make up to `n` requests, and stop at the first that is not granted. -/
def takeUpTo (request : MemoryM (Option PhysAddr)) (n : Nat) : MemoryM Taken :=
  takeAfter request {} n

/-! ## Frames for tables -/

/-- Park frames until `n` more are parked, `parkLimit` is reached or none is free. Gives how
many were parked. -/
def parkUpTo : Nat → MemoryM Nat
  | 0 => pure 0
  | n + 1 => do
    if (← get).frames.parked.size < parkLimit then
      match ← claim with
      | none => return 0
      | some p =>
        countAlloc p
        updateFrames fun f => { f with parked := f.parked.push p }
        return (← parkUpTo n) + 1
    else return 0

/-- Park up to `n` frames for tables. They are used from now on, but nobody holds them. -/
def park (n : Nat) : MemoryM Nat := do
  let parked ← parkUpTo (min n parkLimit)
  if parked < n then
    Board.note .warn .frames s!"parked only {parked} of {n} page-table frames"
  else
    Board.note .debug .frames s!"parked {parked} page-table frames"
  return parked

/-- Take a zeroed frame for a table: the next parked one, or else any free one. -/
def allocateTable : MemoryM (Option PhysAddr) := do
  let f := (← get).frames
  match f.parked[f.drawn]? with
  | some p =>
    updateFrames fun f => { f with drawn := f.drawn + 1 }
    zero p
    return some p
  | none => allocate

end Memory

end HighHalf
