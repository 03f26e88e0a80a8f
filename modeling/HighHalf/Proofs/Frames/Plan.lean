import HighHalf.Proofs.Space.TreesKept

/-!
# The plan of the frame store

Setting up decides which frames the store manages, and the end of the move decides through which
window they are reached. No request to the store or to the mapper changes either, and no step of
the move up to the switch does.

## Main definitions

* `Memory.Stays`, `Space.Stays`: the same frames through the same window
-/

namespace HighHalf

open Event Board

variable {ε δ α : Type}

/-- The same frames are managed through the same window. -/
def Memory.Stays (m m' : Memory) : Prop := Frames.SamePlan m.frames m'.frames

instance : Std.Refl Memory.Stays := ⟨fun m => Frames.SamePlan.refl m.frames⟩

instance : IsTrans Memory Memory.Stays := ⟨fun _ _ _ h h' => Frames.SamePlan.trans h h'⟩

/-- The same frames are managed through the same window. -/
def Space.Stays (s s' : Space) : Prop := s.memory.Stays s'.memory

instance : Std.Refl Space.Stays := ⟨fun s => Frames.SamePlan.refl s.memory.frames⟩

instance : IsTrans Space Space.Stays := ⟨fun _ _ _ h h' => Frames.SamePlan.trans h h'⟩

/-! ## The frame store -/

namespace Memory

theorem stays_onBoard (x : BoardM α) : Ensures Stays (liftM x : MemoryM α) := by
  refine ⟨fun hrun => ?_⟩
  obtain ⟨b, -, rfl⟩ := exists_of_onBoard hrun
  exact Frames.SamePlan.refl _

theorem stays_updateFrames {g : Frames → Frames} (hg : ∀ f, Frames.SamePlan f (g f)) :
    Ensures Stays (updateFrames g) := by
  refine ⟨fun hrun => ?_⟩
  cases hrun
  exact hg _

theorem stays_mark (i : Nat) (used : Bool) : Ensures Stays (mark i used) := by
  unfold mark
  refine ensures_bind ensures_get fun m => ?_
  dsimp only
  split
  · exact ensures_bind ensures_get fun m => stays_onBoard _
  · exact ensures_pure _

theorem stays_claim : Ensures Stays claim := by
  unfold claim
  refine ensures_bind ensures_get fun m => ?_
  dsimp only
  split
  · exact ensures_pure _
  · refine ensures_bind ensures_get fun m => ?_
    cases m.firstFree with
    | none => exact ensures_pure _
    | some i =>
      refine ensures_bind (stays_mark i true) fun _ => ?_
      refine ensures_bind (stays_updateFrames fun f => ?_) fun _ => ensures_pure _
      exact ⟨rfl, rfl, rfl, rfl, rfl, rfl, rfl⟩

theorem stays_zero (p : PhysAddr) : Ensures Stays (zero p) :=
  ensures_bind ensures_get fun _ => stays_onBoard _

theorem stays_countAlloc (p : PhysAddr) : Ensures Stays (countAlloc p) :=
  stays_updateFrames fun _ => ⟨rfl, rfl, rfl, rfl, rfl, rfl, rfl⟩

theorem stays_allocate : Ensures Stays allocate := by
  unfold allocate
  refine ensures_bind stays_claim fun p => ?_
  cases p with
  | none =>
    refine ensures_bind (stays_updateFrames fun f => ?_) fun _ => ?_
    · exact ⟨rfl, rfl, rfl, rfl, rfl, rfl, rfl⟩
    refine ensures_bind ensures_get fun m => ?_
    exact ensures_bind (stays_onBoard _) fun _ => ensures_pure _
  | some p =>
    refine ensures_bind (stays_zero p) fun _ => ?_
    exact ensures_bind (stays_countAlloc p) fun _ => ensures_pure _

theorem stays_allocateTable : Ensures Stays allocateTable := by
  unfold allocateTable
  refine ensures_bind ensures_get fun m => ?_
  dsimp only
  split
  · refine ensures_bind (stays_updateFrames fun f => ?_) fun _ => ?_
    · exact ⟨rfl, rfl, rfl, rfl, rfl, rfl, rfl⟩
    exact ensures_bind (stays_zero _) fun _ => ensures_pure _
  · exact stays_allocate

theorem stays_parkUpTo (n : Nat) : Ensures Stays (parkUpTo n) := by
  induction n with
  | zero => exact ensures_pure _
  | succ n ih =>
    unfold parkUpTo
    refine ensures_bind ensures_get fun m => ?_
    split
    · refine ensures_bind stays_claim fun p => ?_
      cases p with
      | none => exact ensures_pure _
      | some p =>
        refine ensures_bind (stays_countAlloc p) fun _ => ?_
        refine ensures_bind (stays_updateFrames fun f => ?_) fun _ => ?_
        · exact ⟨rfl, rfl, rfl, rfl, rfl, rfl, rfl⟩
        exact ensures_bind ih fun _ => ensures_pure _
    · exact ensures_pure _

theorem stays_park (n : Nat) : Ensures Stays (park n) := by
  unfold park
  refine ensures_bind (stays_parkUpTo _) fun k => ?_
  split
  · exact ensures_bind (stays_onBoard _) fun _ => ensures_pure _
  · exact ensures_bind (stays_onBoard _) fun _ => ensures_pure _

theorem stays_release (p : PhysAddr) : Ensures Stays (release p) := by
  unfold release
  refine ensures_bind ensures_get fun m => ?_
  split
  · exact ensures_bind (stays_onBoard _) fun _ => ensures_pure _
  · refine ensures_bind ensures_get fun m => ensures_bind (stays_mark ..) fun _ => ?_
    refine ensures_bind (stays_updateFrames fun f => ?_) fun _ => ensures_pure _
    exact ⟨rfl, rfl, rfl, rfl, rfl, rfl, rfl⟩

end Memory

/-! ## The mapper -/

namespace Tables

open Memory

section Any

/-! What every step on the board and every request for a table keeps, the mapper keeps. -/

variable {R : Memory → Memory → Prop} [Std.Refl R] [IsTrans Memory R]
  (hboard : ∀ {α : Type} (x : BoardM α), Ensures R (liftM x : MemoryM α))
  (halloc : Ensures R allocateTable)

include hboard halloc

theorem ensures_descendMaking (v : VirtAddr) (table : PhysAddr) (level n : Nat) :
    Ensures R (descendMaking v table level n).run := by
  induction n generalizing table level with
  | zero => exact ensures_pureE _
  | succ n ih =>
    unfold descendMaking
    refine ensures_bindE ensures_getE fun m => ?_
    refine ensures_bindE (ensures_lift (hboard _)) fun old => ?_
    dsimp only
    split
    · exact ih _ _
    · split
      · exact ensures_bindE (ensures_lift (hboard _)) fun _ => ensures_throwE _
      · refine ensures_bindE (ensures_lift halloc) fun p => ?_
        cases p with
        | none => exact ensures_throwE _
        | some next =>
          refine ensures_bindE (ensures_lift (hboard _)) fun _ => ?_
          exact ensures_bindE (ensures_lift (hboard _)) fun _ => ih _ _

theorem ensures_makeLeafTables (root : PhysAddr) (start : VirtAddr) (j n : Nat) :
    Ensures R (makeLeafTables root start j n).run := by
  induction n generalizing j with
  | zero => exact ensures_pureE _
  | succ n ih =>
    unfold makeLeafTables
    exact ensures_bindE (ensures_descendMaking hboard halloc ..) fun _ => ih (j + 1)

theorem ensures_writeLeaves (root : PhysAddr) (start : VirtAddr) (p : PhysAddr) (f : Flags)
    (table : PhysAddr) (i n : Nat) :
    Ensures R (writeLeaves root start p f table i n).run := by
  induction n generalizing table i with
  | zero => exact ensures_pureE _
  | succ n ih =>
    rw [writeLeaves_succ]
    refine ensures_bindE ?_ fun t => ?_
    · exact ensures_iteE (ensures_descendMaking hboard halloc ..) (ensures_pureE _)
    · refine ensures_bindE (ensures_lift (ensures_check _)) fun frame => ?_
      refine ensures_bindE ensures_getE fun m => ?_
      exact ensures_bindE (hboard _) fun _ => ih t (i + 1)

theorem ensures_mapRange (root : PhysAddr) (start stop : VirtAddr) (p : PhysAddr) (f : Flags) :
    Ensures R (mapRange root start stop p f).run := by
  unfold mapRange
  dsimp only
  refine ensures_iteE (ensures_refusalE _) (ensures_iteE (ensures_refusalE _) ?_)
  refine ensures_bindE (ensures_checkE _) fun _ => ?_
  refine ensures_bindE (ensures_makeLeafTables hboard halloc ..) fun _ => ?_
  refine ensures_bindE (ensures_writeLeaves hboard halloc ..) fun _ => ?_
  exact ensures_bindE (ensures_lift (hboard _)) fun _ => ensures_pureE _

end Any

theorem stays_mapRange (root : PhysAddr) (start stop : VirtAddr) (p : PhysAddr) (f : Flags) :
    Ensures Stays (mapRange root start stop p f).run :=
  ensures_mapRange stays_onBoard stays_allocateTable root start stop p f

end Tables

/-! ## The address space -/

theorem Space.stays_onMemory {x : EStateM ε Memory α} (h : Ensures Memory.Stays x) :
    Ensures Space.Stays (Space.onMemory x) := by
  refine ⟨fun hrun => ?_⟩
  obtain ⟨m, hm, rfl⟩ := Space.exists_of_onMemory hrun
  exact h.of_ok hm

/-- The plan stays as it is up to the switch. -/
theorem Transition.admits_stays (rs : List PhysAddr) : Admits Space.Stays rs where
  board := fun _ => Space.stays_onMemory (Memory.stays_onBoard _)
  park := fun n => Space.stays_onMemory (Memory.stays_park n)
  allocateTable := Space.stays_onMemory Memory.stays_allocateTable
  mapRange := fun _ _ _ _ _ _ => Space.stays_onMemory (Tables.stays_mapRange ..)
  ledger := fun s _ => Frames.SamePlan.refl s.memory.frames
  live := fun s _ => Frames.SamePlan.refl s.memory.frames

end HighHalf
