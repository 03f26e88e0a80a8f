import HighHalf.Frames.Basic
import HighHalf.Ledger
import HighHalf.Platform
import HighHalf.Transition.Cause

/-!
# The address space

The address space is everything the kernel has for memory: the board, the frame store, the
ledger, the root tables and how far the move to the high half has come. A `SpaceM` action is a
step that acts on all of it.
-/

namespace HighHalf

/-- Which root tables are in use. -/
inductive Live where
  /-- None: addresses are physical. -/
  | identity
  /-- Both. -/
  | dual
  /-- The high one. -/
  | highOnly
deriving DecidableEq, Repr, Inhabited

/-- The root tables of the two halves. -/
structure Roots where
  low : PhysAddr
  high : PhysAddr
deriving DecidableEq, Repr, Inhabited

/-- How the kernel addresses memory. -/
inductive Mode where
  /-- Not brought up yet. -/
  | unsettled
  /-- Address resolution is on and the kernel is in the high half. -/
  | resolved
  /-- Address resolution is off for good. -/
  | bypass
deriving DecidableEq, Repr, Inhabited

namespace Mode

/-- All modes. -/
def all : List Mode := [unsettled, resolved, bypass]

/-- The text shown for a mode. -/
def text : Mode → String
  | unsettled => "uninitialized"
  | resolved => "full MMU"
  | bypass => "bypass"

instance : ToString Mode := ⟨text⟩

end Mode

/-- The address space. -/
structure Space where
  config : MemoryConfig
  layout : ImageLayout
  memory : Memory
  ledger : Ledger := {}
  live : Live := .identity
  roots : Option Roots := none
  phase : Phase := .start
  mode : Mode := .unsettled
  /-- Why the move was given up, if it was. -/
  abort : Option Abort := none

/-- A step of the kernel that acts on the whole address space. -/
abbrev SpaceM := EStateM Fatal Space

namespace Space

/-- An address space that has not been brought up, over a board whose RAM is reached through
`window`. -/
def fresh (config : MemoryConfig) (layout : ImageLayout) (board : Board) (window : Window) :
    Space where
  config := config
  layout := layout
  memory := { board := board, frames := { region := config.memory, window := window } }

/-- A step on memory, with the rest left alone. -/
def onMemory {ε α : Type} (x : EStateM ε Memory α) : EStateM ε Space α :=
  fun ⟨config, layout, memory, ledger, live, roots, phase, mode, abort⟩ =>
    match x memory with
    | .ok a memory => .ok a ⟨config, layout, memory, ledger, live, roots, phase, mode, abort⟩
    | .error e memory => .error e ⟨config, layout, memory, ledger, live, roots, phase, mode, abort⟩

instance : MonadLift MemoryM SpaceM := ⟨onMemory⟩

/-- A request to the board, with the rest left alone. -/
def onBoard {ε α : Type} (x : ExceptT ε BoardM α) : ExceptT ε SpaceM α :=
  ExceptT.mk (onMemory (Memory.onBoard x.run))

/-- Record a mapping in the ledger. -/
def record (m : Mapping) : SpaceM Unit := do
  let ledger := (← get).ledger
  let (ledger, _) ← (ledger.record m : BoardM _)
  modify fun s => { s with ledger := ledger }

end Space

end HighHalf
