import HighHalf.Frames.Allocate
import HighHalf.Tables.Error
import HighHalf.Tables.Walk

/-!
# Changing a table tree

Leaves are written and cleared one descriptor at a time, and every descriptor is published
right after it is stored. Tables that a walk needs are made on the way; a table is zeroed
before it is linked, and once linked it stays. A range is mapped in two passes: the first makes
all tables, the second writes all leaves, so a range that runs out of frames leaves no leaf
behind.

Addresses are never rounded and permissions never invented: the caller gives aligned addresses
and a complete leaf flag word.
-/

namespace HighHalf

/-- A mapping request: a step that may fail for a reason the caller can act on. -/
abbrev MapM := ExceptT MapError MemoryM

namespace Tables

/-- Store a descriptor at `a` and make it visible to the walker. -/
def install (a : Word) (e : Entry) : BoardM Unit := do
  Board.store (.word a e.raw)
  Board.publish a

/-- Link the table at `next` from entry `i`, which is reached at `a`. -/
def link (a : Word) (i : Nat) (next : PhysAddr) : BoardM Unit := do
  let old : Entry := ⟨← Board.load a⟩
  if old.isLeaf then throw (.tableOverLeaf i)
  let e ← Entry.table next
  install a e

/-- The table `n` levels below `table`, a table of level `level`, with missing tables made on
the way. -/
def descendMaking (v : VirtAddr) (table : PhysAddr) (level : Nat) : Nat → MapM PhysAddr
  | 0 => return table
  | n + 1 => do
    let i := v.slot level
    let a := entryPlace (← get).frames.window table i
    let e : Entry := ⟨← Board.load a⟩
    if e.isTable then descendMaking v e.addr (level + 1) n
    else if e.isValid then
      let seen := e.describe
      Board.note .warn .tables s!"L{level} entry {i} for {v} is not a table: {seen}"
      throw .blocked
    else
      match ← Memory.allocateTable with
      | none => throw .outOfFrames
      | some next =>
        link a i next
        Board.note .trace .tables s!"L{level}[{i}] -> new table {next} for {v}"
        descendMaking v next (level + 1) n

/-- The leaf table that covers `v` below `root`, with missing tables made on the way. -/
def makeLeafTable (root : PhysAddr) (v : VirtAddr) : MapM PhysAddr := descendMaking v root 0 3

/-- Refuse a flag word that is no complete leaf or holds address bits. -/
def checkFlags (f : Flags) : Except MapError Unit :=
  if !f.isLeaf || f.bits &&& Entry.addressMask ≠ 0 then .error .badFlags else .ok ()

/-! ## One page -/

/-- Write the leaf that maps `v` to the frame at `p` into the leaf table at `table`. -/
def mapPage (w : Window) (table : PhysAddr) (v : VirtAddr) (p : PhysAddr) (f : Flags) :
    ExceptT MapError BoardM Unit := do
  if !v.aligned || !p.aligned || !table.aligned then throw .misaligned
  checkFlags f
  let e ← (Entry.leaf p f : Except Fatal Entry)
  install (entryPlace w table (v.slot 3)) e

/-- Empty the leaf for `v` and give back the descriptor that was there. Cached resolutions of
`v` are the caller's business. -/
def unmapPage (w : Window) (root : PhysAddr) (v : VirtAddr) : ExceptT MapError BoardM Entry := do
  match leafTable? (← get).ram w root v with
  | none => throw .unmapped
  | some table =>
    let a := entryPlace w table (v.slot 3)
    let old : Entry := ⟨← Board.load a⟩
    if !old.isValid then throw .unmapped
    install a .empty
    return old

/-! ## A range -/

/-- Pages from `start` up to `stop`. -/
def pagesBetween (start stop : VirtAddr) : Nat := ((stop.val - start.val) >>> pageShift).toNat

/-- The address of page `i` of a range that begins at `start`. -/
def pageOf (start : VirtAddr) (i : Nat) : VirtAddr := start.add (UInt64.ofNat (4096 * i))

/-- How many leaf tables `n` pages from `start` on lie in. -/
def leafTables (start : VirtAddr) (n : Nat) : Nat :=
  if n = 0 then 0 else (start.slot 3 + n + 511) / 512

/-- The first page of a range from `start` that lies in its leaf table number `j`. -/
def firstPageIn (start : VirtAddr) (j : Nat) : Nat := 512 * j - start.slot 3

/-- Make leaf tables number `j` and on, `n` of them, of a range from `start`. -/
def makeLeafTables (root : PhysAddr) (start : VirtAddr) (j : Nat) : Nat → MapM Unit
  | 0 => return ()
  | n + 1 => do
    let _ ← makeLeafTable root (pageOf start (firstPageIn start j))
    makeLeafTables root start (j + 1) n

/-- Write the leaves of pages `i` and on, `n` of them, of a range from `start` to the frames
from `p` on. `table` is the leaf table of the page before; it is looked up anew for the first
page and wherever a page has slot 0. -/
def writeLeaves (root : PhysAddr) (start : VirtAddr) (p : PhysAddr) (f : Flags)
    (table : PhysAddr) (i : Nat) : Nat → MapM Unit
  | 0 => return ()
  | n + 1 => do
    let v := pageOf start i
    let table ← if i = 0 || v.slot 3 = 0 then makeLeafTable root v else pure table
    let frame ← p.add (UInt64.ofNat (4096 * i))
    let w := (← get).frames.window
    Memory.request (mapPage w table v frame f)
    writeLeaves root start p f table (i + 1) n

/-- Map the pages from `start` up to `stop` to consecutive frames from `p` on. Gives the number
of leaves written. -/
def mapRange (root : PhysAddr) (start stop : VirtAddr) (p : PhysAddr) (f : Flags) :
    MapM Nat := do
  if !start.aligned || !stop.aligned || !p.aligned then throw .misaligned
  if stop.val < start.val then throw .badRange
  checkFlags f
  let pages := pagesBetween start stop
  makeLeafTables root start 0 (leafTables start pages)
  writeLeaves root start p f root 0 pages
  Board.note .trace .tables s!"mapped [{start}..{stop}) -> {p} ({pages} pages)"
  return pages

end Tables

end HighHalf
