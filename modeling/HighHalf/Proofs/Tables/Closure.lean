import HighHalf.Proofs.Frames.Overhang
import HighHalf.Proofs.Tables.Mapping

/-!
# Where the walks go

Anything that was ever handed out may be named as a table, also a frame that has come back since, or
the table of a lower level. A walk from there must not leave the frames of the store. What makes
sure of it is that a frame is handed out zeroed and that the mapper is the only one who writes into
it: a table descriptor that it stores leads to a frame that was just handed out. So there is always
a set of frames from which no table descriptor leads out.

## Main definitions

* `Memory.Closed`: no table descriptor leads out of a set of frames
* `Memory.Tidy`: no walk from a table leaves the frames of the store
* `Memory.Kept`: the store is usable, and the tables that were named are tidy
-/

namespace HighHalf

namespace Memory

/-- The set holds frames of the store only, and no table descriptor in one of them leads out. -/
def Closed (m : Memory) (S : PhysAddr → Prop) : Prop :=
  ∀ t, S t → m.frames.Manages t ∧
    ∀ i < 512, (m.entry t i).isTable = true → S (m.entry t i).addr

/-- No walk from the table at `t` leaves the frames of the store. -/
def Tidy (m : Memory) (t : PhysAddr) : Prop := ∃ S, Closed m S ∧ S t

variable {m m' : Memory} {p q t u : PhysAddr} {i k n : Nat} {e : Entry} {N N' : List PhysAddr}

theorem Tidy.managed (h : Tidy m t) : m.frames.Manages t := by
  obtain ⟨S, hS, ht⟩ := h
  exact (hS t ht).1

theorem Tidy.link (h : Tidy m t) (hi : i < 512) (htable : (m.entry t i).isTable = true) :
    Tidy m (m.entry t i).addr := by
  obtain ⟨S, hS, ht⟩ := h
  exact ⟨S, hS, (hS t ht).2 i hi htable⟩

/-- A frame without table descriptors is tidy. -/
theorem tidy_of_bare (ht : m.frames.Manages t) (h : ∀ i < 512, (m.entry t i).isTable = false) :
    Tidy m t := by
  refine ⟨(· = t), ?_, rfl⟩
  rintro _ rfl
  refine ⟨ht, fun i hi htable => ?_⟩
  rw [h i hi] at htable
  cases htable

/-- Tables stay tidy as long as the new table descriptors in them lead to tables that were tidy. -/
theorem Tidy.step (hplan : Frames.SamePlan m.frames m'.frames)
    (hentry : ∀ u, Tidy m u → ∀ i < 512, (m'.entry u i).isTable = true →
      Tidy m (m'.entry u i).addr) (h : Tidy m t) : Tidy m' t :=
  ⟨Tidy m, fun u hu => ⟨hplan.manages.2 hu.managed, hentry u hu⟩, h⟩

/-! ## What is kept -/

/-- The store is usable, descriptors have room for the addresses of its frames, and the tables in
`N` are tidy. -/
structure Kept (N : List PhysAddr) (m : Memory) : Prop where
  usable : Usable m
  narrow : m.frames.region.stop.num ≤ 2 ^ 48
  tidy : ∀ t ∈ N, Tidy m t

theorem Kept.mono (h : Kept N m) (hN : ∀ t ∈ N', t ∈ N) : Kept N' m :=
  ⟨h.usable, h.narrow, fun t ht => h.tidy t (hN t ht)⟩

theorem Kept.cons (h : Kept N m) (ht : Tidy m t) : Kept (t :: N) m :=
  ⟨h.usable, h.narrow, List.forall_mem_cons.2 ⟨ht, h.tidy⟩⟩

theorem Kept.tail (h : Kept (t :: N) m) : Kept N m := h.mono fun _ hs => List.mem_cons_of_mem _ hs

/-- A table that was only named on the way is forgotten. -/
theorem Kept.forget {T : List PhysAddr} (h : Kept (T ++ t :: N) m) : Kept (T ++ N) m :=
  h.mono fun s hs => by
    rcases List.mem_append.1 hs with hs | hs
    · exact List.mem_append_left _ hs
    · exact List.mem_append_right _ (List.mem_cons_of_mem _ hs)

theorem Kept.link (h : Kept N m) (ht : t ∈ N) (hi : i < 512)
    (htable : (m.entry t i).isTable = true) : Kept ((m.entry t i).addr :: N) m :=
  h.cons ((h.tidy t ht).link hi htable)

/-- A frame of the store has a short address. -/
theorem Kept.num_lt (h : Kept N m) (ht : m.frames.Manages t) : t.num < 2 ^ 48 := by
  have hnarrow := h.narrow
  have htotal := h.usable.plan.total_eq
  have hlow := ht.low
  have hhigh := ht.high
  omega

/-- The words of a frame are those of before where its bytes are. -/
theorem Usable.entry_eq (h : Usable m) (hplan : Frames.SamePlan m.frames m'.frames)
    (hbank : Ram.SameBank m.board.ram m'.board.ram) (ht : m.frames.Manages t)
    (hcells : ∀ n, t.num ≤ n → n < t.num + 4096 → m'.cell n = m.cell n) (hi : i < 512) :
    m'.entry t i = m.entry t i :=
  Tables.entry_congr h.shows (by rw [hplan.window]; exact hbank.shows h.shows) hbank (h.has ht) hi
    hcells

/-- Nothing changes outside the bitmap. -/
theorem Kept.confined (h : Kept N m) (hu : Usable m') (hplan : Frames.SamePlan m.frames m'.frames)
    (hbank : Ram.SameBank m.board.ram m'.board.ram)
    (hcells : ∀ n, m.board.ram.base.num ≤ n → ¬ m.InBitmap n → m'.cell n = m.cell n) :
    Kept N m' := by
  refine ⟨hu, by rw [hplan.region]; exact h.narrow, fun t ht => (h.tidy t ht).step hplan ?_⟩
  intro u hu i hi
  have hlow := (h.usable.has hu.managed).1
  rw [h.usable.entry_eq hplan hbank hu.managed (fun n hn _ => hcells n (by omega)
    (h.usable.not_inBitmap hu.managed hn)) hi]
  exact hu.link hi

theorem Kept.keeps (h : Kept N m) (k : Keeps m m') : Kept N m' :=
  h.confined (k.usable h.usable) k.plan (by rw [k.ram]; exact Ram.SameBank.refl _)
    fun n _ _ => k.cell n

/-- A frame that is handed out zeroed is tidy, and so are those that were. -/
theorem Kept.handed (h : Kept N m) (hu : Usable m') (hplan : Frames.SamePlan m.frames m'.frames)
    (hbank : Ram.SameBank m.board.ram m'.board.ram) (hp : m.frames.Manages p)
    (hzero : Zeroed m' p) (hcells : Confined m m' p) : Kept (p :: N) m' := by
  have hbare : ∀ i < 512, (m'.entry p i).isTable = false := by
    intro i hi
    have hempty : m'.entry p i = .empty :=
      Tables.entry_of_zero hu.shows (hu.has (hplan.manages.2 hp)) hi hzero
    rw [hempty]
    decide
  refine Kept.cons ⟨hu, by rw [hplan.region]; exact h.narrow, fun t ht => ?_⟩
    (tidy_of_bare (hplan.manages.2 hp) hbare)
  refine (h.tidy t ht).step hplan fun u hu i hi => ?_
  by_cases hup : u = p
  · rw [hup, hbare i hi]
    exact fun htable => absurd htable Bool.false_ne_true
  · have hlow := (h.usable.has hu.managed).1
    have hapart := hu.managed.apart hp hup
    rw [h.usable.entry_eq hplan hbank hu.managed (fun n hn hn' => hcells n (by omega)
      (h.usable.not_inBitmap hu.managed hn) (by omega)) hi]
    exact hu.link hi

/-- An entry of a tidy table is stored. If it is a table descriptor, it leads to a tidy table. -/
theorem Kept.installs (h : Kept N m) (hin : Installs m m' t i e) (ht : Tidy m t) (hi : i < 512)
    (he : e.isTable = true → Tidy m e.addr) : Kept N m' := by
  have htouch := hin.touches h.usable ht.managed hi
  refine ⟨htouch.usable h.usable ht.managed, by rw [hin.frames]; exact h.narrow, fun s hs => ?_⟩
  refine (h.tidy s hs).step htouch.plan fun u hu j hj => ?_
  by_cases hsame : u = t ∧ j = i
  · rw [hsame.1, hsame.2, hin.entry_self h.usable ht.managed hi]
    exact he
  · rw [hin.entry_of_ne h.usable ht.managed hu.managed hi hj (by tauto)]
    exact hu.link hj

/-! ## Requests to the frame store -/

/-- What a request for a frame leaves is known of the frame too. -/
theorem Kept.allocate {r : Option PhysAddr} (h : Kept N m) (hrun : allocate m = .ok r m') :
    Kept (r.toList ++ N) m' := by
  rcases h.usable.allocate with ⟨n, hrun₁, hlacks, hu⟩ | ⟨p, n, hrun₁, hhands, hu⟩
  · cases hrun.symm.trans hrun₁
    refine h.confined hu ?_ (by rw [hlacks.ram]; exact Ram.SameBank.refl _) fun n _ _ => ?_
    · rw [hlacks.frames]
      exact ⟨rfl, rfl, rfl, rfl, rfl, rfl, rfl⟩
    · rw [cell, hlacks.ram, cell]
  · cases hrun.symm.trans hrun₁
    refine h.handed hu ?_ hhands.bank hhands.managed hhands.zeroed hhands.cells
    rw [hhands.frames]
    exact ⟨rfl, rfl, rfl, rfl, rfl, rfl, rfl⟩

theorem Kept.allocateTable {r : Option PhysAddr} (h : Kept N m)
    (hrun : allocateTable m = .ok r m') : Kept (r.toList ++ N) m' := by
  rcases h.usable.issues with hsame | ⟨p, n, hrun₁, hissues⟩
  · exact h.allocate (hsame.symm.trans hrun)
  · cases hrun.symm.trans hrun₁
    have hp : p ∈ m.frames.pool := by
      rw [hissues.pool]
      exact List.mem_cons_self
    refine h.handed hissues.usable ?_ hissues.bank (h.usable.pool_managed p hp) hissues.zeroed
      hissues.cells
    rw [hissues.frames]
    exact ⟨rfl, rfl, rfl, rfl, rfl, rfl, rfl⟩

theorem Kept.park (h : Kept N m) (hrun : park n m = .ok k m') : Kept N m' := by
  have hstep : ∀ m m₁ i, Kept N m → m.frames.parked.size < parkLimit → Claims m m₁ i →
      Kept N { m₁ with frames := m₁.frames.shelved (m.frames.addrOf i) } := by
    intro m m₁ i h _ c
    refine h.confined (c.usable_shelved h.usable) (c.plan.trans ?_) c.bank c.cells
    exact ⟨rfl, rfl, rfl, rfl, rfl, rfl, rfl⟩
  obtain ⟨j, m₁, hparked, h₁⟩ := parkUpTo_induct
    (fun m h => ⟨h.usable.plan, h.usable.bitmapInside⟩) hstep (min n parkLimit) h
  obtain ⟨l, text, hrun₁⟩ := run_park hparked
  cases hrun.symm.trans hrun₁
  exact h₁.keeps (keeps_noted ..)

theorem Kept.release {r : Except FrameError Unit} (h : Kept N m)
    (hrun : release p m = .ok r m') : Kept N m' := by
  rcases refusal_of_release hrun with ⟨-, hnone⟩ | ⟨e, -, -, hkeeps⟩
  · have hp := (refusal_eq_none_iff_accepted h.usable.plan.ready).1 hnone
    obtain ⟨n, hrun₁, ht⟩ := run_release h.usable.bitmapInside h.usable.plan.ready hp
    cases hrun.symm.trans hrun₁
    exact h.confined (ht.usable h.usable hp) ht.plan ht.bank ht.cells
  · exact h.keeps hkeeps

end Memory

end HighHalf
