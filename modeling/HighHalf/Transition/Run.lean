import HighHalf.Space.Basic
import HighHalf.Tables.Map
import HighHalf.Transition.Region

/-!
# The move to the high half

The processor is taken from physical addresses to the high half without losing its place:

1. both root tables are made;
2. all of RAM is mapped in the high half, and every region at both of its aliases;
3. both aliases of every page are walked and checked, and so are the image's pointers and the
   stack pointer;
4. the vectors are set to their physical address and address resolution is turned on, with
   both halves walked;
5. execution moves to the high alias, and the console after it;
6. the vectors move;
7. what still points low is moved, and the low half is not walked any more.

Up to step 3 the move can be given up, with address resolution off. From step 4 on a failure
is fatal. The vectors stay physical until execution is known to be on the high alias, so that
an exception right after step 4 still finds them.
-/

namespace HighHalf

/-- What a completed move leaves behind: the root tables, and how far execution was moved. -/
structure Arrival where
  roots : Roots
  displacement : Word
deriving DecidableEq, Repr, Inhabited

/-- A step of the move, which may be given up. -/
abbrev MoveM := ExceptT Abort SpaceM

namespace Transition

/-- Step to another phase. -/
def stepTo (p q : Phase) : BoardM Phase := do
  let q ← p.advance q
  Board.note .debug .transition s!"{p} -> {q}"
  return q

/-- Step to the next phase of the move. -/
def advance (p q : Phase) : BoardM Unit := do
  let q ← stepTo p q
  Board.note .info .transition s!"bootstrap: {q}"

/-! ## Building -/

/-- A frame for a root table. -/
def rootFrame : MoveM PhysAddr := do
  match ← Memory.allocateTable with
  | some p => return p
  | none => throw ⟨.start, .noRootFrame⟩

/-- Park frames for tables and make both root tables. -/
def buildRoots (c : MemoryConfig) : MoveM Roots := do
  let parked ← Memory.park c.tableReserve
  Board.note .debug .transition s!"{parked} frames parked for tables"
  let low ← rootFrame
  let high ← rootFrame
  advance .start .tablesBuilt
  Board.note .info .transition s!"roots: TTBR0 {low} TTBR1 {high}"
  return ⟨low, high⟩

/-- Map a range at `start` below one of the roots and record it. -/
def mapInto (root : PhysAddr) (name : String) (start : VirtAddr) (r : PhysRange) (f : Flags) :
    MoveM Unit := do
  let stop := start.add r.size
  match ← ExceptT.lift (Space.onMemory (Tables.mapRange root start stop r.start f).run) with
  | .error e => throw ⟨.tablesBuilt, .mapping name e⟩
  | .ok _ => Space.record ⟨name, start, stop, r.start, f⟩

/-- Map a region at both of its aliases. A region without a byte is passed over. -/
def mapTwice (roots : Roots) (high : Word) (region : Region) : MoveM Unit := do
  let r ← region.range.widened
  if r.isEmpty then return ()
  mapInto roots.low region.name r.start.identity r region.flags
  mapInto roots.high region.name (r.start.highAlias high) r region.flags

/-- Map every region of a list at both of its aliases. -/
def mapAllTwice (roots : Roots) (high : Word) : List Region → MoveM Unit
  | [] => return ()
  | region :: rest => do
    mapTwice roots high region
    mapAllTwice roots high rest

/-- Map RAM in the high half and every region at both of its aliases. RAM comes first, so that
the regions override its permissions. -/
def mapDual (c : MemoryConfig) (l : ImageLayout) (roots : Roots) : MoveM Unit := do
  let high := c.highBase
  mapInto roots.high "ram-linear" (c.memory.start.highAlias high) c.memory .data
  mapAllTwice roots high (← Region.all c l)
  modify fun s => { s with live := .dual }
  advance .tablesBuilt .dualMapped

/-! ## Checking -/

/-- Check that the entry found for an alias of the page at `p` shows that page and, where code
runs, lets it run. `v` is the high alias. -/
def checkEntry (region : Region) (p : PhysAddr) (v : VirtAddr) (e : Entry) : MoveM Unit := do
  if !e.isLeaf || e.addr ≠ p then
    let seen := e.describe
    Board.note .warn .transition s!"'{region.name}' alias check failed for {p}: {seen}"
    throw ⟨.dualMapped, .aliasMismatch region.name v⟩
  if region.executable && !e.flags.executable then
    throw ⟨.dualMapped, .notExecutable region.name⟩

/-- Check both aliases of pages `i` and on of a range, `n` of them. -/
def checkPages (roots : Roots) (high : Word) (region : Region) (r : PhysRange) (i : Nat) :
    Nat → MoveM Unit
  | 0 => return ()
  | n + 1 => do
    let p := r.step i
    let v := p.highAlias high
    let memory := (← get).memory
    let lowEntry := Tables.lookup memory.board.ram memory.frames.window roots.low p.identity
    let highEntry := Tables.lookup memory.board.ram memory.frames.window roots.high v
    checkEntry region p v lowEntry
    checkEntry region p v highEntry
    checkPages roots high region r (i + 1) n

/-- Check both aliases of every page of every region. Gives the number of pages. -/
def checkRegions (roots : Roots) (high : Word) : List Region → MoveM Nat
  | [] => return 0
  | region :: rest => do
    let r ← region.range.widened
    checkPages roots high region r 0 r.steps
    let more ← checkRegions roots high rest
    return r.steps + more

/-- The relocation table of the image. -/
def relocations (l : ImageLayout) : Relocations := ⟨l.relocations⟩

/-- Check everything the move relies on. -/
def check (c : MemoryConfig) (l : ImageLayout) (roots : Roots) : MoveM Unit := do
  let pages ← checkRegions roots c.highBase (← Region.all c l)
  let memory := (← get).memory
  match (relocations l).validate memory.board.ram memory.frames.window l.data with
  | .error e => throw ⟨.dualMapped, .relocation e⟩
  | .ok pointers =>
    let sp ← Board.stackPointer
    if !l.stack.holds sp then throw ⟨.dualMapped, .stackOutside sp⟩
    let ledger := (← get).ledger
    let conflicts ← ledger.conflicts
    if 0 < conflicts then
      Board.note .warn .transition s!"{conflicts} conflicting overlaps in the mapping audit"
    let shown := sp.hex
    Board.note .info .transition
      s!"dual mapping verified: {pages} pages, {pointers} image pointers, sp {shown}"

/-! ## Switching -/

/-- Turn address resolution on with the vectors at their physical address. -/
def enable (c : MemoryConfig) (l : ImageLayout) (roots : Roots) : MoveM Unit := do
  Control.setVectors l.vectors.val
  let applied : SpaceM (Except BaseError Unit) :=
    Space.onMemory (Memory.onBoard (Control.apply roots.low roots.high c.width .dual).run)
  match ← ExceptT.lift applied with
  | .error e => throw ⟨.dualMapped, .bases e⟩
  | .ok () => advance .dualMapped .enabledLow

/-- The first code on the high alias: make sure that addresses are being resolved, prove that
the console's device answers at its alias, and move the console there. -/
def arrive (uart : Word) : BoardM Unit := do
  let sctlr ← Board.readRegister .sctlr
  if sctlr &&& Control.resolving ≠ Control.resolving then throw (.resolvingOff sctlr)
  if !(← Board.probe uart "[mmu] high UART alias live\n") then
    Board.note .debug .transition "console not ready, skipping UART alias probe"
  let old ← Board.consoleBase
  Board.moveConsole uart
  let shownOld := old.hex
  let shownNew := uart.hex
  Board.note .info .transition s!"console moved {shownOld} -> {shownNew}"

/-- Move execution to the high alias. Gives how far it was moved. -/
def moveExecution (c : MemoryConfig) : BoardM Word := do
  let d ← Board.relocate c.highBase
  arrive (c.uart.val ||| c.highBase)
  advance .enabledLow .arrived
  return d

/-- What the move holds on to, all of which is found again at the high alias. -/
def held : List String := ["config", "layout", "frames", "control", "ledger", "live roots"]

/-- Find everything the move holds on to again at the high alias. -/
def followHeld (d : Word) : List String → BoardM Unit
  | [] => return ()
  | name :: rest => do
    Board.follow (.object name) d
    followHeld d rest

/-- Move the vectors to the high alias. -/
def moveVectors (c : MemoryConfig) (l : ImageLayout) : BoardM Unit := do
  Control.setVectors (l.vectors.val ||| c.highBase)
  advance .arrived .vectorsMoved

/-- Find every name in the ledger again at the high alias. An empty name is nowhere. -/
def followNames (d : Word) : List Mapping → BoardM Unit
  | [] => return ()
  | m :: rest => do
    if m.name ≠ "" then Board.follow (.text m.name) d
    followNames d rest

/-- Move what still points low, then stop walking the low half. -/
def collapse (c : MemoryConfig) (l : ImageLayout) (d : Word) : SpaceM Unit := do
  let ram := (← get).memory.frames.window.reach c.memory.start
  let there ← Board.aliasOfRam ram d
  Memory.shiftWindow (there - ram)
  let window := (← get).memory.frames.window
  let _ ← (relocations l).rebase window d
  let records := (← get).ledger.records.toList
  followNames d records
  Control.switchWalks .highOnly
  Control.dropCached
  modify fun s => { s with live := .highOnly }
  advance .vectorsMoved .highOnly

/-! ## The whole move -/

/-- Everything up to the moment address resolution is on. -/
def prepare (c : MemoryConfig) (l : ImageLayout) : MoveM Roots := do
  if c.width ≠ .bits48 then throw ⟨.start, .unsupportedWidth c.width⟩
  let roots ← buildRoots c
  mapDual c l roots
  check c l roots
  enable c l roots
  return roots

/-- Everything after that moment. -/
def complete (c : MemoryConfig) (l : ImageLayout) : SpaceM Word := do
  let d ← moveExecution c
  followHeld d held
  moveVectors c l
  collapse c l d
  return d

/-- Move the kernel to the high half, or give up with address resolution off. -/
def run (c : MemoryConfig) (l : ImageLayout) : MoveM Arrival := do
  let roots ← prepare c l
  let displacement ← complete c l
  return ⟨roots, displacement⟩

end Transition

end HighHalf
