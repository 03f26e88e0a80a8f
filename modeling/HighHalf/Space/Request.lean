import HighHalf.Frames.Summary
import HighHalf.Space.Basic
import HighHalf.Tables.Map

/-!
# Requests to the address space

What the rest of the kernel asks for: mapping a range, mapping a device, unmapping a page, and
questions about an address. With address resolution off for good, mapping requests succeed and
do nothing, since every address is physical. Once the low half is not walked any more, requests
for it are refused.

Every request that may have changed a table drops the cached resolutions, on whatever way it
ends.
-/

namespace HighHalf

/-- Physical addresses from here on have no high alias of their own. -/
def highAliasLimit : Word := Word.field 1 47

/-- A request to the address space. -/
abbrev RequestM := ExceptT MapError SpaceM

namespace Space

/-- Whether addresses are being resolved. -/
def isResolved (s : Space) : Bool := s.mode = .resolved

/-- Whether high addresses can be handed out. -/
def highAvailable (s : Space) : Bool := s.isResolved && s.live = .highOnly

/-- The root below which the range from `start` up to `stop` lies. An empty range is taken by
its start. -/
def rootFor (s : Space) (start stop : VirtAddr) : Except MapError PhysAddr :=
  match s.roots with
  | none => .error .notReady
  | some roots =>
    let last : VirtAddr := if start.val < stop.val then ⟨stop.val - 1⟩ else start
    match start.high, last.high with
    | true, true => .ok roots.high
    | false, false => if s.live = .highOnly then .error .lowHalfRetired else .ok roots.low
    | _, _ => .error .badRange

/-- Map a range and record it under a name. Gives the number of pages. -/
def mapNamed (name : String) (start stop : VirtAddr) (p : PhysAddr) (f : Flags) :
    RequestM Nat := do
  match (← get).mode with
  | .unsettled => throw .notReady
  | .bypass =>
    Board.note .debug .space s!"bypass: not mapping {start}..{stop}"
    return 0
  | .resolved =>
    let root ← (← get).rootFor start stop
    let mapped ← ExceptT.lift (Space.onMemory (Tables.mapRange root start stop p f).run)
    Control.dropCached
    let pages ← mapped
    Space.record ⟨name, start, stop, p, f⟩
    Board.note .debug .space s!"mapped {pages} pages at {start} -> {p}"
    return pages

/-- Map the pages from `start` up to `stop` to frames from `p` on. Gives their number. -/
def mapRange (start stop : VirtAddr) (p : PhysAddr) (f : Flags) : RequestM Nat :=
  mapNamed "dynamic" start stop p f

/-- The whole pages that hold `size` bytes from `p` on, at least one; none if they come near
the end of what has a high alias. -/
def devicePages (p : PhysAddr) (size : Word) : Option PhysRange :=
  match p.val.add? (if size = 0 then 1 else size) with
  | none => none
  | some stop =>
    if highAliasLimit - pageSize < stop then none
    else some ⟨p.floor, ⟨(stop + pageMask) &&& ~~~pageMask⟩⟩

/-- Map `size` bytes of device registers at `p` to their high alias. Gives the number of
pages. -/
def mapDevice (p : PhysAddr) (size : Word) : RequestM Nat := do
  match devicePages p size with
  | none => throw .badRange
  | some r =>
    let high := (← get).config.highBase
    mapNamed "device" (r.start.highAlias high) (r.stop.highAlias high) r.start .device

/-- Where the kernel reaches the device at `p`. -/
def deviceAddress (s : Space) (p : PhysAddr) : Word :=
  if s.mode = .resolved then p.val ||| s.config.highBase else p.val

/-- Remove the mapping of the page that holds `v`. -/
def unmap (v : VirtAddr) : RequestM Unit := do
  match (← get).mode with
  | .unsettled => throw .notReady
  | .bypass => return ()
  | .resolved =>
    let v := v.floor
    let root ← (← get).rootFor v (v.add pageSize)
    let window := (← get).memory.frames.window
    let old ← Space.onBoard (Tables.unmapPage window root v)
    Control.dropCached
    let seen := old.describe
    Board.note .debug .space s!"unmapped {v} (was {seen})"

/-- The leaf descriptor for `v`, the empty one if there is none. -/
def entry (s : Space) (v : VirtAddr) : Entry :=
  match s.roots with
  | none => .empty
  | some roots =>
    Tables.lookup s.memory.board.ram s.memory.frames.window
      (if v.high then roots.high else roots.low) v

/-- What the low and the high root give for `v`: its leaf descriptor, and the physical address. -/
def walks (s : Space) (v : VirtAddr) : Option (List (Entry × Option PhysAddr)) :=
  let ram := s.memory.board.ram
  let window := s.memory.frames.window
  s.roots.map fun roots => [roots.low, roots.high].map fun root =>
    (Tables.lookup ram window root v, Tables.resolve ram window root v)

/-- Log how `v` is resolved. -/
def describe (v : VirtAddr) : SpaceM Unit := do
  let mode := (← get).mode
  let seen := ((← get).entry v).describe
  Board.note .info .space s!"{v} ({mode}): {seen}"
  if let some m := (← get).ledger.find v then
    let p ← m.physFor v
    Board.note .info .space s!"  recorded as '{m.name}' -> {p}"

/-! ## Frames, and what a reader wants to know -/

/-- Take a zeroed frame. -/
def allocate : SpaceM (Option PhysAddr) := onMemory Memory.allocate

/-- Take up to `n` frames, and stop at the first that is not to be had. -/
def allocateUpTo (n : Nat) : SpaceM Memory.Taken := onMemory (Memory.takeUpTo Memory.allocate n)

/-- Give a frame back. -/
def release (p : PhysAddr) : SpaceM (Except FrameError Unit) := onMemory (Memory.release p)

/-- Log the summary of the frame store. -/
def summarize : SpaceM Unit := onMemory Memory.summarize

/-- Log every recorded mapping. -/
def logLedger : SpaceM Unit := do
  let ledger := (← get).ledger
  ledger.logAll

/-- How many pairs of recorded mappings disagree. -/
def conflicts : SpaceM Nat := do
  let ledger := (← get).ledger
  ledger.conflicts

/-- Whether the processor says that addresses are being resolved. -/
def processorResolves : SpaceM Bool := Control.isResolving

end Space

end HighHalf
