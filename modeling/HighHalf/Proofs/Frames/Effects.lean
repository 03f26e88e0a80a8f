import HighHalf.Proofs.Frames.Requests

/-!
# What requests to the frame store leave

For each request the store that is left, with all its counters, every mark of the bitmap, and the
bytes of RAM that can have changed. The specifications of the requests say what callers may rely
on; here nothing is left open, so counters and marks can be followed through a whole run.

## Main definitions

* `Memory.Takes`: a free frame is used and counted
* `Memory.Draws`: the next parked frame is handed out
* `Memory.Shelves`: a free frame is used, counted and parked
* `Memory.Reseen`: the store is seen through another window
-/

namespace HighHalf

namespace Frames

variable {f g : Frames}

theorem SamePlan.symm (a : SamePlan f g) : SamePlan g f :=
  ⟨a.ready.symm, a.region.symm, a.window.symm, a.bitmap.symm, a.bitmapSize.symm, a.total.symm,
    a.reserved.symm⟩

end Frames

namespace Memory

/-- All bytes of the frame at `p` are zero. -/
def Zeroed (m : Memory) (p : PhysAddr) : Prop :=
  ∀ n, p.num ≤ n → n < p.num + 4096 → m.cell n = 0

/-- No byte changes outside the bitmap and the frame at `p`. -/
def Confined (m m' : Memory) (p : PhysAddr) : Prop :=
  ∀ n, m.board.ram.base.num ≤ n → ¬ m.InBitmap n → n < p.num ∨ p.num + 4096 ≤ n →
    m'.cell n = m.cell n

/-- The frame at `p` was free; now it is used and counted. -/
structure Takes (m m' : Memory) (p : PhysAddr) : Prop where
  consistent : Consistent m'
  managed : m.frames.Manages p
  unmarked : m.marked (m.frames.indexOf p) = false
  frames : m'.frames = Frames.counted { m.frames with free := m.frames.free - 1 } p
  cells : Confined m m' p
  marked : ∀ j, m'.marked j = if j = m.frames.indexOf p then true else m.marked j

/-- The frame at `p` was the next parked one; now it is handed out. -/
structure Draws (m m' : Memory) (p : PhysAddr) : Prop where
  consistent : Consistent m'
  pool : m.frames.pool = p :: m'.frames.pool
  frames : m'.frames = { m.frames with drawn := m.frames.drawn + 1 }
  cells : Confined m m' p
  marked : ∀ j, m'.marked j = m.marked j

/-- The frame at `p` was free; now it is used, counted and the last parked one. -/
structure Shelves (m m' : Memory) (p : PhysAddr) : Prop where
  consistent : Consistent m'
  managed : m.frames.Manages p
  unmarked : m.marked (m.frames.indexOf p) = false
  frames : m'.frames = { Frames.counted { m.frames with free := m.frames.free - 1 } p with
    parked := m.frames.parked.push p }
  marked : ∀ j, m'.marked j = if j = m.frames.indexOf p then true else m.marked j

/-- The same store over RAM with the same bitmap, perhaps reached through another window. -/
structure Reseen (m m' : Memory) : Prop where
  frames : m'.frames = { m.frames with window := m'.frames.window }
  bank : Ram.SameBank m.board.ram m'.board.ram
  shows : m'.board.ram.Shows m'.frames.window
  cells : ∀ n, m.InBitmap n → m'.cell n = m.cell n

/-- No frame was free, and that is counted. -/
structure Misses (m m' : Memory) : Prop where
  none_free : m.frames.free = 0
  frames : m'.frames = m.frames.shortOf
  ram : m'.board.ram = m.board.ram

variable {m m' m₁ z : Memory} {p q : PhysAddr} {i n : Nat}

theorem Touches.refl (m : Memory) (p : PhysAddr) : Touches m m p :=
  ⟨rfl, Ram.SameBank.refl _, fun _ _ _ => rfl⟩

theorem Keeps.symm (k : Keeps m m') : Keeps m' m :=
  ⟨k.ram.symm, k.plan.symm, k.free.symm, k.parked.symm, k.drawn.symm⟩

theorem Keeps.owned_iff (k : Keeps m m') : m'.Owned p ↔ m.Owned p :=
  ⟨fun hp => k.symm.owned hp, fun hp => k.owned hp⟩

theorem Misses.keeps (h : Misses m m') : Keeps m m' := by
  refine ⟨h.ram, ?_, ?_, ?_, ?_⟩
  · rw [h.frames]
    exact ⟨rfl, rfl, rfl, rfl, rfl, rfl, rfl⟩
  all_goals rw [h.frames]; rfl

/-! ## Seeing the store again -/

theorem Reseen.marked (r : Reseen m m') (h : Consistent m) (i : Nat) :
    m'.marked i = m.marked i := by
  have hb := h.bitmapInside
  refine marked_congr hb ⟨r.shows, ?_⟩ (by rw [r.frames]) (by rw [r.frames]) r.cells i
  rw [r.frames]
  exact r.bank.has.2 hb.has

/-- Consistency hangs on the bitmap, and not on where it is seen. -/
theorem Reseen.consistent (r : Reseen m m') (h : Consistent m) : Consistent m' := by
  have hmarked := r.marked h
  have hplan := h.plan
  constructor
  case plan =>
    rw [r.frames]
    exact ⟨hplan.ready, hplan.aligned, hplan.total_eq, hplan.bitmapSize_eq, hplan.bitmap_low,
      hplan.bitmap_high, hplan.reserved_le⟩
  case shows => exact r.shows
  case inside =>
    rw [r.frames]
    exact r.bank.has.2 h.inside
  case free_eq =>
    simp only [unmarked, hmarked]
    rw [r.frames]
    exact h.free_eq
  case pool_managed =>
    rw [r.frames]
    intro p hp
    obtain ⟨h1, h2, h3⟩ := h.pool_managed p hp
    exact ⟨h1, h2, h3⟩
  case marked_reserved =>
    simp only [hmarked]
    rw [r.frames]
    exact h.marked_reserved
  case marked_past =>
    simp only [hmarked]
    rw [r.frames]
    exact h.marked_past
  case pool_marked =>
    simp only [hmarked]
    rw [r.frames]
    exact h.pool_marked
  all_goals rw [r.frames]
  case parked_le => exact h.parked_le
  case drawn_le => exact h.drawn_le
  case pool_nodup => exact h.pool_nodup

/-! ## Taking a frame -/

/-- A claimed frame, written at most, is counted. -/
theorem Claims.takes (h : Consistent m) (c : Claims m m₁ i)
    (t : Touches m₁ z (m.frames.addrOf i)) :
    Takes m { z with frames := z.frames.counted (m.frames.addrOf i) } (m.frames.addrOf i) := by
  obtain ⟨m', -, hkeeps, hm'⟩ := countAlloc_spec (m.frames.addrOf i) z
  obtain ⟨hman, -, -, -⟩ := c.taken h
  have hspares := c.spares h
  have hman₁ := hspares.plan.manages.2 hman
  have hindex := Frames.indexOf_addrOf h.plan (Nat.le_of_lt c.below)
  rw [← hm']
  constructor
  case consistent => exact hkeeps.consistent (t.consistent hspares.consistent hman₁)
  case managed => exact hman
  case unmarked =>
    rw [hindex]
    exact c.unmarked
  case frames =>
    rw [hm', t.frames, c.frames]
  case cells =>
    intro n hn hb hout
    rw [hkeeps.cell, t.cells n (by rw [c.bank.base]; exact hn) hout, c.cells n hn hb]
  case marked =>
    intro j
    rw [hkeeps.marked, t.marked hspares.consistent.usable hman₁, c.marked, hindex]

theorem Takes.pool (t : Takes m m' p) : m'.frames.pool = m.frames.pool := by
  rw [t.frames]
  rfl

theorem Takes.plan (t : Takes m m' p) : Frames.SamePlan m.frames m'.frames := by
  rw [t.frames]
  exact ⟨rfl, rfl, rfl, rfl, rfl, rfl, rfl⟩

/-- A frame that was free is not parked. -/
theorem Takes.not_parked (h : Consistent m) (t : Takes m m' p) : p ∉ m.frames.pool := by
  intro hp
  have hmark := h.pool_marked p hp
  rw [t.unmarked] at hmark
  cases hmark

theorem Takes.not_owned (t : Takes m m' p) : ¬ m.Owned p := by
  intro hp
  have hmark := hp.marked
  rw [t.unmarked] at hmark
  cases hmark

/-- A frame that is marked gets an owner, and nobody else does. -/
theorem owned_of_marked (hf : m.frames.Planned) (hplan : Frames.SamePlan m.frames m'.frames)
    (hpool : m'.frames.pool = m.frames.pool) (hp : m.frames.Manages p)
    (hnot : p ∉ m.frames.pool)
    (hmarked : ∀ j, m'.marked j = if j = m.frames.indexOf p then true else m.marked j) :
    m'.Owned q ↔ q = p ∨ m.Owned q := by
  constructor
  · rintro ⟨hman, hmark, hpark⟩
    have hq := hplan.manages.1 hman
    rw [hplan.indexOf, hmarked] at hmark
    rw [hpool] at hpark
    by_cases hi : m.frames.indexOf q = m.frames.indexOf p
    · exact Or.inl (hq.ext hf hp hi)
    · rw [if_neg hi] at hmark
      exact Or.inr ⟨hq, hmark, hpark⟩
  · rintro (rfl | hq)
    · refine ⟨hplan.manages.2 hp, ?_, by rwa [hpool]⟩
      rw [hplan.indexOf, hmarked, if_pos rfl]
    · refine ⟨hplan.manages.2 hq.managed, ?_, by rw [hpool]; exact hq.not_parked⟩
      rw [hplan.indexOf, hmarked, hq.marked, ite_self]

theorem Takes.owned (h : Consistent m) (t : Takes m m' p) : m'.Owned q ↔ q = p ∨ m.Owned q :=
  owned_of_marked h.plan t.plan t.pool t.managed (t.not_parked h) t.marked

/-- A zeroed frame is taken, or none is free. -/
theorem allocate_takes (h : Consistent m) :
    (∃ m', allocate m = .ok none m' ∧ Misses m m') ∨
      ∃ p m', allocate m = .ok (some p) m' ∧ Takes m m' p ∧ Zeroed m' p := by
  rcases claim_spec h with ⟨hrun, hfree⟩ | ⟨i, m₁, hrun, hclaim⟩
  · obtain ⟨text, hnone⟩ := run_allocate_none hrun
    exact Or.inl ⟨_, hnone, hfree, rfl, rfl⟩
  · have hspares := hclaim.spares h
    obtain ⟨z, hzero, htouch, hcells⟩ :=
      touches_zero hspares.consistent.usable (hspares.plan.manages.2 (hclaim.taken h).1)
    exact Or.inr ⟨_, _, run_allocate hrun hzero, hclaim.takes h htouch, hcells⟩

/-! ## Drawing a parked frame -/

theorem Draws.plan (d : Draws m m' p) : Frames.SamePlan m.frames m'.frames := by
  rw [d.frames]
  exact ⟨rfl, rfl, rfl, rfl, rfl, rfl, rfl⟩

theorem Draws.mem_pool (d : Draws m m' p) : p ∈ m.frames.pool := by
  rw [d.pool]
  exact List.mem_cons_self

theorem Draws.not_owned (d : Draws m m' p) : ¬ m.Owned p := fun hp => hp.not_parked d.mem_pool

/-- A parked frame that is drawn gets an owner, and nobody else does. -/
theorem owned_of_drawn (hplan : Frames.SamePlan m.frames m'.frames)
    (hpool : m.frames.pool = p :: m'.frames.pool) (hnodup : p ∉ m'.frames.pool)
    (hman : m.frames.Manages p) (hset : m.marked (m.frames.indexOf p) = true)
    (hmarked : ∀ j, m'.marked j = m.marked j) : m'.Owned q ↔ q = p ∨ m.Owned q := by
  constructor
  · rintro ⟨hman, hmark, hpark⟩
    rw [hplan.indexOf, hmarked] at hmark
    by_cases hq : q = p
    · exact Or.inl hq
    · refine Or.inr ⟨hplan.manages.1 hman, hmark, ?_⟩
      rw [hpool, List.mem_cons]
      rintro (hqp | hmem)
      · exact hq hqp
      · exact hpark hmem
  · rintro (rfl | ⟨hman, hmark, hpark⟩)
    · refine ⟨hplan.manages.2 hman, ?_, hnodup⟩
      rw [hplan.indexOf, hmarked]
      exact hset
    · refine ⟨hplan.manages.2 hman, ?_, fun hmem => hpark ?_⟩
      · rw [hplan.indexOf, hmarked]
        exact hmark
      · rw [hpool]
        exact List.mem_cons_of_mem p hmem

theorem Draws.owned (h : Consistent m) (d : Draws m m' p) : m'.Owned q ↔ q = p ∨ m.Owned q := by
  have hnodup := h.pool_nodup
  rw [d.pool, List.nodup_cons] at hnodup
  exact owned_of_drawn d.plan d.pool hnodup.1 (h.pool_managed p d.mem_pool)
    (h.pool_marked p d.mem_pool) d.marked

/-- The next parked frame is drawn, and where none is parked a frame is taken. -/
theorem allocateTable_draws (h : Consistent m) :
    (m.frames.pool = [] ∧ allocateTable m = allocate m) ∨
      ∃ p m', allocateTable m = .ok (some p) m' ∧ Draws m m' p ∧ Zeroed m' p := by
  cases hp : m.frames.parked[m.frames.drawn]? with
  | none =>
    refine Or.inl ⟨?_, run_allocateTable_empty hp⟩
    rw [Array.getElem?_eq_none_iff] at hp
    rw [Frames.pool, List.drop_eq_nil_iff, Array.length_toList]
    exact hp
  | some p =>
    obtain ⟨hspares, hown, hnot, -⟩ := draw_spec h hp rfl
    obtain ⟨z, hzero, htouch, hcells⟩ := touches_zero hspares.consistent.usable hown.managed
    refine Or.inr ⟨p, z, run_allocateTable_next hp hzero, ?_, hcells⟩
    constructor
    case consistent => exact htouch.consistent hspares.consistent hown.managed
    case pool =>
      rw [htouch.frames]
      exact Frames.pool_eq_cons hp
    case frames => exact htouch.frames
    case cells =>
      intro n hn _ hout
      exact htouch.cells n hn hout
    case marked =>
      exact htouch.marked hspares.consistent.usable hown.managed

/-! ## Parking -/

theorem Shelves.plan (s : Shelves m m' p) : Frames.SamePlan m.frames m'.frames := by
  rw [s.frames]
  exact ⟨rfl, rfl, rfl, rfl, rfl, rfl, rfl⟩

/-- A parked frame has no owner, as before. -/
theorem owned_of_shelved (hf : m.frames.Planned) (hplan : Frames.SamePlan m.frames m'.frames)
    (hpool : m'.frames.pool = m.frames.pool ++ [p]) (hp : m.frames.Manages p)
    (hclear : m.marked (m.frames.indexOf p) = false)
    (hmarked : ∀ j, m'.marked j = if j = m.frames.indexOf p then true else m.marked j) :
    m'.Owned q ↔ m.Owned q := by
  constructor
  · rintro ⟨hman, hmark, hpark⟩
    have hq := hplan.manages.1 hman
    rw [hpool, List.mem_append, List.mem_singleton, not_or] at hpark
    rw [hplan.indexOf, hmarked, if_neg fun hi => hpark.2 (hq.ext hf hp hi)] at hmark
    exact ⟨hq, hmark, hpark.1⟩
  · rintro ⟨hman, hmark, hpark⟩
    refine ⟨hplan.manages.2 hman, ?_, ?_⟩
    · rw [hplan.indexOf, hmarked, hmark, ite_self]
    · rw [hpool, List.mem_append, List.mem_singleton]
      rintro (hmem | rfl)
      · exact hpark hmem
      · rw [hclear] at hmark
        cases hmark

theorem Shelves.owned (h : Consistent m) (s : Shelves m m' p) : m'.Owned q ↔ m.Owned q := by
  refine owned_of_shelved h.plan s.plan ?_ s.managed s.unmarked s.marked
  rw [s.frames]
  exact Frames.pool_shelved (f := { m.frames with free := m.frames.free - 1 }) h.drawn_le p

theorem Claims.shelves (h : Consistent m) (c : Claims m m₁ i)
    (hroom : m.frames.parked.size < parkLimit) :
    Shelves m { m₁ with frames := m₁.frames.shelved (m.frames.addrOf i) } (m.frames.addrOf i) := by
  have ht := c.takes h (Touches.refl m₁ _)
  refine ⟨(c.spares_shelved h hroom).1.consistent, ht.managed, ht.unmarked, ?_, ht.marked⟩
  show m₁.frames.shelved _ = _
  rw [c.frames]
  rfl

/-- What every frame that is parked keeps, parking several keeps. -/
theorem parkUpTo_keeps {P : Memory → Prop} (hP : ∀ m, P m → Consistent m)
    (hstep : ∀ m m' p, P m → Shelves m m' p → P m') (n : Nat) (h : P m) :
    ∃ k m', parkUpTo n m = .ok k m' ∧ P m' :=
  parkUpTo_induct (fun m h => ⟨(hP m h).plan, (hP m h).bitmapInside⟩)
    (fun m _ _ h hroom c => hstep m _ _ h (c.shelves (hP m h) hroom)) n h

/-! ## Giving back -/

/-- In a store over whole pages only frames with an owner are accepted. -/
theorem refusal_eq_none_iff (h : Consistent m) (hstop : m.frames.region.stop.num % 4096 = 0) :
    m.refusal p = none ↔ m.Owned p := by
  refine ⟨fun hnone => ?_, fun hp => hp.refusal h⟩
  rw [refusal_eq_none_iff_accepted h.plan.ready] at hnone
  refine (hnone.owned_or_last h.plan).resolve_right fun hlast => ?_
  -- The last page of the range is whole, so a frame that begins in it ends in it.
  have hhigh := hnone.high
  have htotal := h.plan.total_eq
  have hstart := h.plan.aligned
  omega

/-- A frame that is not taken back leaves a line in the log. -/
theorem run_release_refused {e : FrameError} (h : m.refusal p = some e) :
    release p m = .ok (.error e) (m.noted .warn .frames s!"refusing to free {p}: {e}") := by
  rw [release, run_bind_ok (run_get m), h]
  exact run_bind_ok (run_note ..)

/-- What is said to a holder says whether the frame was taken back. -/
theorem refusal_of_release {r : Except FrameError Unit} (h : release p m = .ok r m') :
    (r = .ok () ∧ m.refusal p = none) ∨ ∃ e, r = .error e ∧ m.refusal p = some e ∧ Keeps m m' := by
  cases hrefusal : m.refusal p with
  | none =>
    rw [release, run_bind_ok (run_get m), hrefusal] at h
    obtain ⟨_, m₁, -, hrest⟩ := exists_of_run_bind h
    obtain ⟨_, m₂, -, hrest₂⟩ := exists_of_run_bind hrest
    obtain ⟨_, m₃, -, hdone⟩ := exists_of_run_bind hrest₂
    cases hdone
    exact Or.inl ⟨rfl, rfl⟩
  | some e =>
    rw [run_release_refused hrefusal] at h
    cases h
    exact Or.inr ⟨e, rfl, rfl, keeps_noted ..⟩

/-- A refused frame leaves the store and RAM as they are. -/
theorem release_cases (h : Consistent m) (hstop : m.frames.region.stop.num % 4096 = 0)
    (p : PhysAddr) :
    (∃ e m', release p m = .ok (.error e) m' ∧ m'.frames = m.frames ∧
        m'.board.ram = m.board.ram ∧ ¬ m.Owned p) ∨
      ∃ m', release p m = .ok (.ok ()) m' ∧ Releases m m' p ∧ m.Owned p := by
  cases hrefusal : m.refusal p with
  | none =>
    have hp := (refusal_eq_none_iff h hstop).1 hrefusal
    obtain ⟨m', hrun, hrel⟩ := release_spec h hp
    exact Or.inr ⟨m', hrun, hrel, hp⟩
  | some e =>
    refine Or.inl ⟨e, _, run_release_refused hrefusal, rfl, rfl, fun hp => ?_⟩
    rw [hp.refusal h] at hrefusal
    cases hrefusal

end Memory

end HighHalf
