import HighHalf.Frames.Basic

/-!
# The summary of the frame store

The summary gives the counters, a sampled map of the range and the last event. The map has 64
cells; each shows the first of its frames: `K` image, `B` bitmap, `#` used, `.` free, and a
blank past the end.
-/

namespace HighHalf

namespace Memory

/-- Cells in the map. -/
def mapWidth : Nat := 64

/-- Frames that one cell of the map stands for. -/
def mapStep (f : Frames) : Nat := max ((f.total + (mapWidth - 1)) / mapWidth) 1

/-- The cell for frame `i`. -/
def mapCell (m : Memory) (i : Nat) : Char :=
  let f := m.frames
  if f.total ≤ i then ' '
  else if i < f.image then 'K'
  else if i < f.reserved then 'B'
  else if m.marked i then '#'
  else '.'

/-- The sampled map. -/
def usageMap (m : Memory) : String :=
  let step := mapStep m.frames
  String.ofList ((List.range mapWidth).map fun cell => m.mapCell (cell * step))

/-- Log the summary. -/
def summarize : MemoryM Unit := do
  let f := (← get).frames
  if !f.ready then
    Board.note .info .frames "frame allocator not initialized"
  else
    let s := f.stats
    Board.note .info .frames
      s!"frames: {f.total} total, {f.free} free, {s.current} in use (peak {s.peak}), {s.failed} failed, {f.waiting} table frames parked"
    let map := (← get).usageMap
    let step := mapStep f
    Board.note .info .frames s!"usage [{map}] ({step} frames per cell)"
    match f.recent.toList with
    | e :: _ => Board.note .debug .frames s!"last event: {e.name} {e.addr}"
    | [] => pure ()

/-! ## The exact picture -/

/-- The frames of the managed range from below, as runs of used and of free ones. A last partial
page counts as a frame here. -/
def usage (m : Memory) : List (Bool × Nat) :=
  let region := m.frames.region
  let add (runs : List (Bool × Nat)) (i : Nat) : List (Bool × Nat) :=
    let used := m.isUsed (region.step i)
    match runs with
    | (u, n) :: done => if u = used then (u, n + 1) :: done else (used, 1) :: runs
    | [] => [(used, 1)]
  ((List.range region.steps).foldl add []).reverse

/-- The runs as a text such as `U5 F59`. -/
def usageText (m : Memory) : String :=
  " ".intercalate (m.usage.map fun (used, n) => (if used then "U" else "F") ++ toString n)

end Memory

/-- The counters: free frames, frames waiting for tables, then the statistics in their order. -/
def Frames.counters (f : Frames) : List Nat :=
  [f.free, f.waiting, f.stats.allocations, f.stats.frees, f.stats.current, f.stats.peak,
    f.stats.failed]

end HighHalf
