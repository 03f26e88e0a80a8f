import HighHalf.Proofs.Frames.Plan

/-!
# What providing frames stores

The frame store changes single bytes of its bitmap, and zeroes each frame that it hands out. So
between two states of a request every store is one of these, and a byte that is neither in the
bitmap nor in a frame that was handed out stays as it is at every moment.

## Main definitions

* `Frames.Provides`: a store to the bitmap, or the zeroing of a frame
* `Memory.Provided`: nothing else was done on the way from one state to another
-/

namespace HighHalf

open Event Board

variable {α : Type}

namespace Frames

/-- A store that providing frames takes: to a byte of the bitmap, or the zeroing of a frame of
which `P` holds. -/
inductive Provides (f : Frames) (P : PhysAddr → Prop) : Store → Prop
  | mark {i : Nat} (v : UInt8) : i < f.bitmapSize → Provides f P (.byte (f.bitmapByte i) v)
  | zero {p : PhysAddr} : P p → Provides f P (.clear (f.window.reach p) 4096)

variable {f g : Frames} {P Q : PhysAddr → Prop} {s : Store}

theorem Provides.mono (h : f.Provides P s) (hPQ : ∀ p, P p → Q p) : f.Provides Q s := by
  cases h with
  | mark v hi => exact .mark v hi
  | zero hp => exact .zero (hPQ _ hp)

theorem SamePlan.provides (a : SamePlan f g) (h : g.Provides P s) : f.Provides P s := by
  cases h with
  | @mark i v hi =>
    have hplace : g.bitmapByte i = f.bitmapByte i := by
      rw [bitmapByte, bitmapByte, a.window, a.bitmap]
    rw [hplace]
    exact .mark v (by rwa [← a.bitmapSize])
  | zero hp =>
    rw [a.window]
    exact .zero hp

end Frames

namespace Memory

variable {m m' : Memory} {P Q : PhysAddr → Prop} {r : Ram} {p : PhysAddr} {s : Store}

/-! ## The bytes that such a store leaves alone -/

/-- Only the bitmap and frames of which `P` holds are stored to. -/
theorem cell_of_provides (hin : BitmapInside m) (hP : ∀ p, P p → m.board.ram.Has p.num 4096)
    (hbank : Ram.SameBank m.board.ram r) (hs : m.frames.Provides P s) {n : Nat}
    (hn : m.board.ram.base.num ≤ n) (hbitmap : ¬ m.InBitmap n)
    (hout : ∀ p, P p → ¬ (p.num ≤ n ∧ n < p.num + 4096)) : (s.apply r).cell n = r.cell n := by
  have hw := hbank.shows hin.shows
  have hbase : r.base.num ≤ n := by rwa [hbank.base]
  cases hs with
  | mark v hi =>
    obtain ⟨hplace, hnum, hhas⟩ := hin.place hi
    rw [hplace]
    refine (Ram.cell_setByte hw (by rw [hnum]; exact hbank.has.2 hhas) v hbase).trans (if_neg ?_)
    rintro rfl
    exact hbitmap ⟨by omega, by omega⟩
  | zero hp =>
    exact (Ram.cell_clear hw (hbank.has.2 (hP _ hp)) hbase).trans (if_neg (hout _ hp))

/-! ## Steps that provide frames -/

/-- The plan is the same, and all that happened are stores that providing frames takes. -/
structure Provided (P : PhysAddr → Prop) (m m' : Memory) : Prop where
  plan : Frames.SamePlan m.frames m'.frames
  stores : ∃ ss : List Store, Happens m.board m'.board (ss.map .store) ∧
    ∀ s ∈ ss, m.frames.Provides P s

instance : Std.Refl (Provided P) :=
  ⟨fun _ => ⟨Frames.SamePlan.refl _, [], Happens.refl _, nofun⟩⟩

instance : IsTrans Memory (Provided P) := by
  refine ⟨fun m m' m'' h h' => ⟨h.plan.trans h'.plan, ?_⟩⟩
  obtain ⟨ss, hss, hall⟩ := h.stores
  obtain ⟨ss', hss', hall'⟩ := h'.stores
  refine ⟨ss ++ ss', by rw [List.map_append]; exact hss.trans hss', ?_⟩
  rw [List.forall_mem_append]
  exact ⟨hall, fun s hs => h.plan.provides (hall' s hs)⟩

theorem provided_store (hs : m.frames.Provides P s) : Provided P m (m.stored s) := by
  refine ⟨Frames.SamePlan.refl _, [s], Happens.one rfl rfl rfl rfl, ?_⟩
  rwa [List.forall_mem_singleton]

theorem provided_note (l : Level) (c : Component) (text : String) :
    Ensures (Provided P) (liftM (Board.note l c text) : MemoryM Unit) := by
  refine ⟨fun {m a m'} hrun => ?_⟩
  cases hrun
  exact ⟨Frames.SamePlan.refl _, [], ⟨(List.append_nil _).symm, rfl, rfl, rfl⟩, nofun⟩

theorem provided_updateFrames {g : Frames → Frames} (hg : ∀ f, Frames.SamePlan f (g f)) :
    Ensures (Provided P) (updateFrames g) := by
  refine ⟨fun {m a m'} hrun => ?_⟩
  cases hrun
  exact ⟨hg _, [], Happens.refl _, nofun⟩

theorem provided_mark (i : Nat) (used : Bool) : Ensures (Provided P) (mark i used) := by
  refine ⟨fun {m a m'} hrun => ?_⟩
  rw [mark, run_bind_ok (run_get m)] at hrun
  dsimp only at hrun
  split at hrun
  · rename_i hi
    rw [run_bind_ok (run_get m)] at hrun
    cases hrun
    exact provided_store (.mark _ hi)
  · cases hrun
    exact Std.Refl.refl _

theorem provided_claim : Ensures (Provided P) claim := by
  unfold claim
  refine ensures_bind ensures_get fun m => ?_
  dsimp only
  split
  · exact ensures_pure _
  · refine ensures_bind ensures_get fun m => ?_
    cases m.firstFree with
    | none => exact ensures_pure _
    | some i =>
      refine ensures_bind (provided_mark i true) fun _ => ?_
      refine ensures_bind (provided_updateFrames fun f => ?_) fun _ => ensures_pure _
      exact ⟨rfl, rfl, rfl, rfl, rfl, rfl, rfl⟩

theorem provided_zero (hp : P p) : Ensures (Provided P) (zero p) := by
  refine ⟨fun {m a m'} hrun => ?_⟩
  cases hrun
  exact provided_store (.zero hp)

theorem provided_countAlloc (p : PhysAddr) : Ensures (Provided P) (countAlloc p) :=
  provided_updateFrames fun _ => ⟨rfl, rfl, rfl, rfl, rfl, rfl, rfl⟩

/-- No frame is zeroed but the one that is granted. -/
theorem provided_allocate {o : Option PhysAddr} (hrun : allocate m = .ok o m')
    (hP : ∀ p, o = some p → P p) : Provided P m m' := by
  obtain ⟨c, m₁, hclaim, hrest⟩ := exists_of_run_bind hrun
  have hclaimed : Provided P m m₁ := provided_claim.of_ok hclaim
  cases c with
  | none =>
    refine IsTrans.trans _ _ _ hclaimed (Ensures.of_ok ?_ hrest)
    refine ensures_bind (provided_updateFrames fun f => ?_) fun _ => ?_
    · exact ⟨rfl, rfl, rfl, rfl, rfl, rfl, rfl⟩
    exact ensures_bind ensures_get fun m => ensures_bind (provided_note ..) fun _ => ensures_pure _
  | some p =>
    have hsome : o = some p := by
      obtain ⟨_, m₂, -, hrest⟩ := exists_of_run_bind hrest
      obtain ⟨_, m₃, -, hdone⟩ := exists_of_run_bind hrest
      cases hdone
      rfl
    refine IsTrans.trans _ _ _ hclaimed (Ensures.of_ok ?_ hrest)
    refine ensures_bind (provided_zero (hP p hsome)) fun _ => ?_
    exact ensures_bind (provided_countAlloc p) fun _ => ensures_pure _

theorem provided_allocateTable {o : Option PhysAddr} (hrun : allocateTable m = .ok o m')
    (hP : ∀ p, o = some p → P p) : Provided P m m' := by
  cases hnext : m.frames.parked[m.frames.drawn]? with
  | none =>
    rw [run_allocateTable_empty hnext] at hrun
    exact provided_allocate hrun hP
  | some p =>
    rw [allocateTable, run_bind_ok (run_get m), hnext] at hrun
    obtain ⟨_, m₁, hdraw, hrest⟩ := exists_of_run_bind hrun
    obtain ⟨_, m₂, hzero, hdone⟩ := exists_of_run_bind hrest
    cases hdone
    have hdrawn : Provided P m m₁ := by
      refine Ensures.of_ok (provided_updateFrames fun f => ?_) hdraw
      exact ⟨rfl, rfl, rfl, rfl, rfl, rfl, rfl⟩
    exact IsTrans.trans _ _ _ hdrawn ((provided_zero (hP p rfl)).of_ok hzero)

theorem provided_parkUpTo (n : Nat) : Ensures (Provided P) (parkUpTo n) := by
  induction n with
  | zero => exact ensures_pure _
  | succ n ih =>
    unfold parkUpTo
    refine ensures_bind ensures_get fun m => ?_
    split
    · refine ensures_bind provided_claim fun p => ?_
      cases p with
      | none => exact ensures_pure _
      | some p =>
        refine ensures_bind (provided_countAlloc p) fun _ => ?_
        refine ensures_bind (provided_updateFrames fun f => ?_) fun _ => ?_
        · exact ⟨rfl, rfl, rfl, rfl, rfl, rfl, rfl⟩
        exact ensures_bind ih fun _ => ensures_pure _
    · exact ensures_pure _

theorem provided_park (n : Nat) : Ensures (Provided P) (park n) := by
  unfold park
  refine ensures_bind (provided_parkUpTo _) fun k => ?_
  split
  · exact ensures_bind (provided_note ..) fun _ => ensures_pure _
  · exact ensures_bind (provided_note ..) fun _ => ensures_pure _

theorem provided_release (p : PhysAddr) : Ensures (Provided P) (release p) := by
  unfold release
  refine ensures_bind ensures_get fun m => ?_
  split
  · exact ensures_bind (provided_note ..) fun _ => ensures_pure _
  · refine ensures_bind ensures_get fun m => ensures_bind (provided_mark ..) fun _ => ?_
    refine ensures_bind (provided_updateFrames fun f => ?_) fun _ => ensures_pure _
    exact ⟨rfl, rfl, rfl, rfl, rfl, rfl, rfl⟩

end Memory

end HighHalf
