import HighHalf.Space.Boot
import HighHalf.Proofs.Board.Events
import HighHalf.Proofs.Tables.Ranges

/-!
# Building happens in RAM

Setting up the frame store, handing out frames, building table trees and checking them store to
RAM and publish descriptors. No register is read or written, nothing is dropped from the caches
and execution stays where it is.
-/

namespace HighHalf

/-- What happens while tables are built: stores, and what makes them visible to the walker. -/
def Event.Builds : Event → Prop
  | .store _ | .dsb _ | .isb | .clean _ => True
  | _ => False

open Event Board

/-! ## The frame store -/

namespace Memory

theorem emits_mark (i : Nat) (used : Bool) : Emits Builds (mark i used) := by
  unfold mark
  refine emits_bind emits_get fun m => emits_ite ?_ (emits_pure _)
  exact emits_bind emits_get fun m => emits_onBoard (emits_store trivial)

theorem emits_markRun (i n : Nat) : Emits Builds (markRun i n) := by
  induction n generalizing i with
  | zero => exact emits_pure _
  | succ n ih =>
    unfold markRun
    exact emits_bind (emits_mark i true) fun _ => ih (i + 1)

theorem emits_setup (image : PhysRange) : Emits Builds (setup image) := by
  unfold setup
  refine emits_bind emits_get fun m => emits_ite (emits_pure _) (emits_ite (emits_pure _) ?_)
  refine emits_bind (emits_check _) fun place => emits_ite ?_ ?_
  · exact emits_bind (emits_onBoard (emits_note ..)) fun _ => emits_pure _
  · refine emits_bind (emits_updateFrames _) fun _ => ?_
    refine emits_bind (emits_onBoard (emits_store trivial)) fun _ => ?_
    refine emits_bind (emits_markRun ..) fun _ => emits_bind (emits_markRun ..) fun _ => ?_
    refine emits_bind (emits_updateFrames _) fun _ => ?_
    exact emits_bind (emits_onBoard (emits_note ..)) fun _ => emits_pure _

theorem emits_claim : Emits Builds claim := by
  unfold claim
  refine emits_bind emits_get fun m => emits_ite (emits_pure _) ?_
  refine emits_bind emits_get fun m => ?_
  cases m.firstFree with
  | none => exact emits_pure _
  | some i =>
    refine emits_bind (emits_mark i true) fun _ => ?_
    exact emits_bind (emits_updateFrames _) fun _ => emits_pure _

theorem emits_zero (p : PhysAddr) : Emits Builds (zero p) := by
  unfold zero
  exact emits_bind emits_get fun m => emits_onBoard (emits_store trivial)

theorem emits_allocate : Emits Builds allocate := by
  unfold allocate
  refine emits_bind emits_claim fun p => ?_
  cases p with
  | none =>
    refine emits_bind (emits_updateFrames _) fun _ => emits_bind emits_get fun m => ?_
    exact emits_bind (emits_onBoard (emits_note ..)) fun _ => emits_pure _
  | some p =>
    refine emits_bind (emits_zero p) fun _ => ?_
    exact emits_bind (emits_updateFrames _) fun _ => emits_pure _

theorem emits_allocateTable : Emits Builds allocateTable := by
  unfold allocateTable
  refine emits_bind emits_get fun m => ?_
  dsimp only
  split
  · refine emits_bind (emits_updateFrames _) fun _ => ?_
    exact emits_bind (emits_zero _) fun _ => emits_pure _
  · exact emits_allocate

theorem emits_parkUpTo (n : Nat) : Emits Builds (parkUpTo n) := by
  induction n with
  | zero => exact emits_pure _
  | succ n ih =>
    unfold parkUpTo
    refine emits_bind emits_get fun m => emits_ite ?_ (emits_pure _)
    refine emits_bind emits_claim fun p => ?_
    cases p with
    | none => exact emits_pure _
    | some p =>
      refine emits_bind (emits_updateFrames _) fun _ => ?_
      refine emits_bind (emits_updateFrames _) fun _ => ?_
      exact emits_bind ih fun _ => emits_pure _

theorem emits_park (n : Nat) : Emits Builds (park n) := by
  unfold park
  refine emits_bind (emits_parkUpTo _) fun k => emits_ite ?_ ?_
  · exact emits_bind (emits_onBoard (emits_note ..)) fun _ => emits_pure _
  · exact emits_bind (emits_onBoard (emits_note ..)) fun _ => emits_pure _

end Memory

/-! ## The mapper -/

namespace Tables

open Memory

theorem emits_install (a : Word) (e : Entry) : Emits Builds (install a e) := by
  unfold install publish
  refine emits_bind (emits_store trivial) fun _ => ?_
  refine emits_bind (emits_emit trivial (fun _ => rfl) fun _ => rfl) fun _ => ?_
  refine emits_bind (emits_emit trivial (fun _ => rfl) fun _ => rfl) fun _ => ?_
  exact emits_emit trivial (fun _ => rfl) fun _ => rfl

theorem emits_load (a : Word) : Emits Builds (Board.load a) := emits_of_still fun _ => rfl

theorem emits_link (a : Word) (i : Nat) (next : PhysAddr) : Emits Builds (link a i next) := by
  unfold link
  refine emits_bind (emits_load a) fun old => emits_ite (emits_throw _) ?_
  exact emits_bind (emits_check _) fun e => emits_install a e

theorem emits_descendMaking (v : VirtAddr) (table : PhysAddr) (level n : Nat) :
    Emits Builds (descendMaking v table level n).run := by
  induction n generalizing table level with
  | zero => exact emits_pureE _
  | succ n ih =>
    unfold descendMaking
    refine emits_bindE emits_getE fun m => ?_
    refine emits_bindE (emits_lift (emits_onBoard (emits_load _))) fun old => ?_
    dsimp only
    split
    · exact ih _ _
    · split
      · refine emits_bindE (emits_lift (emits_onBoard (emits_note ..))) fun _ => ?_
        exact emits_throwE _
      · refine emits_bindE (emits_lift emits_allocateTable) fun p => ?_
        cases p with
        | none => exact emits_throwE _
        | some next =>
          refine emits_bindE (emits_lift (emits_onBoard (emits_link ..))) fun _ => ?_
          exact emits_bindE (emits_lift (emits_onBoard (emits_note ..))) fun _ => ih _ _

theorem emits_makeLeafTables (root : PhysAddr) (start : VirtAddr) (j n : Nat) :
    Emits Builds (makeLeafTables root start j n).run := by
  induction n generalizing j with
  | zero => exact emits_pureE _
  | succ n ih =>
    unfold makeLeafTables
    exact emits_bindE (emits_descendMaking ..) fun _ => ih (j + 1)

theorem emits_mapPage (w : Window) (table : PhysAddr) (v : VirtAddr) (p : PhysAddr) (f : Flags) :
    Emits Builds (mapPage w table v p f).run := by
  unfold mapPage
  split
  · exact emits_throwE _
  · refine emits_bindE (emits_checkE _) fun _ => ?_
    refine emits_bindE (emits_lift (emits_check _)) fun e => ?_
    exact emits_lift (emits_install ..)

theorem emits_writeLeaves (root : PhysAddr) (start : VirtAddr) (p : PhysAddr) (f : Flags)
    (table : PhysAddr) (i n : Nat) :
    Emits Builds (writeLeaves root start p f table i n).run := by
  induction n generalizing table i with
  | zero => exact emits_pureE _
  | succ n ih =>
    rw [writeLeaves_succ]
    refine emits_bindE ?_ fun t => ?_
    · split
      · exact emits_descendMaking ..
      · exact emits_pureE _
    · refine emits_bindE (emits_lift (σ := Memory) (emits_check _)) fun frame => ?_
      refine emits_bindE emits_getE fun m => ?_
      exact emits_bindE (emits_request (emits_mapPage ..)) fun _ => ih t (i + 1)

theorem emits_mapRange (root : PhysAddr) (start stop : VirtAddr) (p : PhysAddr) (f : Flags) :
    Emits Builds (mapRange root start stop p f).run := by
  unfold mapRange
  dsimp only
  refine emits_iteE (emits_refusalE _) (emits_iteE (emits_refusalE _) ?_)
  refine emits_bindE (emits_checkE _) fun _ => ?_
  refine emits_bindE (emits_makeLeafTables ..) fun _ => ?_
  refine emits_bindE (emits_writeLeaves ..) fun _ => ?_
  exact emits_bindE (emits_lift (emits_onBoard (emits_note ..))) fun _ => emits_pureE _

end Tables

/-! ## The ledger -/

namespace Ledger

variable {P : Event → Prop}

theorem emits_record (l : Ledger) (m : Mapping) : Emits P (l.record m) := by
  unfold record
  refine emits_ite ?_ (emits_pure _)
  exact emits_bind (emits_note ..) fun _ => emits_pure _

theorem emits_disagree (a b : Mapping) : Emits P (disagree a b) := by
  unfold disagree
  split
  · exact emits_pure _
  · refine emits_bind (emits_check _) fun p => emits_bind (emits_check _) fun q => ?_
    refine emits_ite (emits_pure _) ?_
    exact emits_bind (emits_note ..) fun _ => emits_pure _

theorem emits_disagreements (m : Mapping) (later : List Mapping) :
    Emits P (disagreements m later) := by
  induction later with
  | nil => exact emits_pure _
  | cons n later ih =>
    unfold disagreements
    exact emits_bind (emits_disagree m n) fun _ => emits_bind ih fun _ => emits_pure _

theorem emits_conflictsIn (records : List Mapping) : Emits P (conflictsIn records) := by
  induction records with
  | nil => exact emits_pure _
  | cons m later ih =>
    unfold conflictsIn
    exact emits_bind (emits_disagreements m later) fun _ => emits_bind ih fun _ => emits_pure _

end Ledger

/-! ## The move up to the last check -/

section Move

variable {α : Type} {P : Event → Prop}

/-- A step of the board as a step of the address space. -/
theorem emits_board {x : BoardM α} (h : Emits P x) : Emits P (liftM x : SpaceM α) :=
  emits_onMemory (emits_onBoard h)

/-- A step of the board as a step of the move. -/
theorem emits_boardE {x : BoardM α} (h : Emits P x) : Emits P (liftM x : MoveM α).run :=
  emits_lift (emits_board h)

theorem emits_recordMapping (m : Mapping) : Emits P (Space.record m) := by
  unfold Space.record
  refine emits_bind emits_get fun s => ?_
  refine emits_bind (emits_board (Ledger.emits_record ..)) fun l => ?_
  exact emits_of_still fun _ => rfl

namespace Transition

theorem emits_stepTo (p q : Phase) : Emits P (stepTo p q) := by
  unfold stepTo
  exact emits_bind (emits_check _) fun q => emits_bind (emits_note ..) fun _ => emits_pure _

theorem emits_advance (p q : Phase) : Emits P (advance p q) := by
  unfold advance
  exact emits_bind (emits_stepTo p q) fun q => emits_note ..

theorem emits_rootFrame : Emits Builds rootFrame.run := by
  unfold rootFrame
  refine emits_bindE (emits_lift (emits_onMemory Memory.emits_allocateTable)) fun p => ?_
  cases p with
  | some p => exact emits_pureE _
  | none => exact emits_throwE _

theorem emits_buildRoots (c : MemoryConfig) : Emits Builds (buildRoots c).run := by
  unfold buildRoots
  refine emits_bindE (emits_lift (emits_onMemory (Memory.emits_park _))) fun n => ?_
  refine emits_bindE (emits_boardE (emits_note ..)) fun _ => ?_
  refine emits_bindE emits_rootFrame fun low => emits_bindE emits_rootFrame fun high => ?_
  refine emits_bindE (emits_boardE (emits_advance ..)) fun _ => ?_
  exact emits_bindE (emits_boardE (emits_note ..)) fun _ => emits_pureE _

theorem emits_mapInto (root : PhysAddr) (name : String) (start : VirtAddr) (r : PhysRange)
    (f : Flags) : Emits Builds (mapInto root name start r f).run := by
  unfold mapInto
  refine emits_bindE (emits_lift (emits_onMemory (Tables.emits_mapRange ..))) fun n => ?_
  cases n with
  | error e => exact emits_throwE _
  | ok n => exact emits_lift (emits_recordMapping _)

theorem emits_mapTwice (roots : Roots) (high : Word) (region : Region) :
    Emits Builds (mapTwice roots high region).run := by
  unfold mapTwice
  refine emits_bindE (emits_lift (σ := Space) (emits_check _)) fun r => ?_
  refine emits_iteE (emits_pureE _) ?_
  exact emits_bindE (emits_mapInto ..) fun _ => emits_mapInto ..

theorem emits_mapAllTwice (roots : Roots) (high : Word) (regions : List Region) :
    Emits Builds (mapAllTwice roots high regions).run := by
  induction regions with
  | nil => exact emits_pureE _
  | cons region rest ih =>
    unfold mapAllTwice
    exact emits_bindE (emits_mapTwice ..) fun _ => ih

theorem emits_mapDual (c : MemoryConfig) (l : ImageLayout) (roots : Roots) :
    Emits Builds (mapDual c l roots).run := by
  unfold mapDual
  refine emits_bindE (emits_mapInto ..) fun _ => ?_
  refine emits_bindE (emits_lift (σ := Space) (emits_check _)) fun regions => ?_
  refine emits_bindE (emits_mapAllTwice ..) fun _ => ?_
  refine emits_bindE (emits_of_still fun _ => rfl) fun _ => ?_
  exact emits_boardE (emits_advance ..)

theorem emits_checkEntry (region : Region) (p : PhysAddr) (v : VirtAddr) (e : Entry) :
    Emits P (checkEntry region p v e).run := by
  unfold checkEntry
  dsimp only
  refine emits_iteE ?_ ?_
  · exact emits_bindE (emits_boardE (emits_note ..)) fun _ => emits_refusalE _
  · exact emits_iteE (emits_throwE _) (emits_pureE _)

theorem emits_checkPages (roots : Roots) (high : Word) (region : Region) (r : PhysRange)
    (i n : Nat) : Emits P (checkPages roots high region r i n).run := by
  induction n generalizing i with
  | zero => exact emits_pureE _
  | succ n ih =>
    unfold checkPages
    refine emits_bindE emits_getE fun s => ?_
    refine emits_bindE (emits_checkEntry ..) fun _ => emits_bindE (emits_checkEntry ..) fun _ => ?_
    exact ih (i + 1)

theorem emits_checkRegions (roots : Roots) (high : Word) (regions : List Region) :
    Emits P (checkRegions roots high regions).run := by
  induction regions with
  | nil => exact emits_pureE _
  | cons region rest ih =>
    unfold checkRegions
    refine emits_bindE (emits_lift (σ := Space) (emits_check _)) fun r => ?_
    exact emits_bindE (emits_checkPages ..) fun _ => emits_bindE ih fun _ => emits_pureE _

theorem emits_stackPointer : Emits P Board.stackPointer :=
  emits_bind emits_get fun _ => emits_pure _

theorem emits_checkAll (c : MemoryConfig) (l : ImageLayout) (roots : Roots) :
    Emits P (check c l roots).run := by
  unfold check
  dsimp only
  refine emits_bindE (emits_lift (σ := Space) (emits_check _)) fun regions => ?_
  refine emits_bindE (emits_checkRegions ..) fun pages => emits_bindE emits_getE fun s => ?_
  split
  · exact emits_throwE _
  · refine emits_bindE (emits_boardE emits_stackPointer) fun sp => ?_
    refine emits_iteE (emits_refusalE _) ?_
    refine emits_bindE emits_getE fun s => ?_
    refine emits_bindE (emits_boardE (Ledger.emits_conflictsIn _)) fun conflicts => ?_
    refine emits_iteE (emits_bindE (emits_boardE (emits_note ..)) fun _ => ?_) ?_
    · exact emits_boardE (emits_note ..)
    · exact emits_boardE (emits_note ..)

end Transition

end Move

end HighHalf
