import HighHalf.Proofs.Frames.Bitmap

/-!
# The frame store and its frames

The bitmap, the count of free frames and the list of parked frames say the same thing three
times. `Memory.Consistent` is the statement that they agree. A frame that is marked and not
parked is owned by whoever took it: every request to the store leaves the frames that others own
alone, and a frame that is granted was not owned before.

## Main definitions

* `Frames.Manages`: the frames that are ever handed out
* `Memory.Consistent`: bitmap, count and parked frames agree
* `Memory.Owned`: the frame was handed out and has not come back
* `Memory.Spares`: what a request may change
-/

namespace HighHalf

namespace Frames

/-- `p` is the first byte of one of the frames that the store hands out. -/
structure Manages (f : Frames) (p : PhysAddr) : Prop where
  aligned : p.num % 4096 = 0
  low : f.region.start.num + 4096 * f.reserved ≤ p.num
  high : p.num + 4096 ≤ f.region.start.num + 4096 * f.total

/-- Range and bitmap fit together as setting up leaves them. -/
structure Planned (f : Frames) : Prop where
  ready : f.ready = true
  aligned : f.region.start.num % 4096 = 0
  total_eq : f.total = (f.region.stop.num - f.region.start.num) / 4096
  bitmapSize_eq : f.bitmapSize = (f.total + 7) / 8
  bitmap_low : f.region.start.num ≤ f.bitmap.num
  bitmap_high : f.bitmap.num + f.bitmapSize ≤ f.region.start.num + 4096 * f.reserved
  reserved_le : f.reserved ≤ f.total

/-- The two stores manage the same frames through the same window. -/
structure SamePlan (f g : Frames) : Prop where
  ready : g.ready = f.ready
  region : g.region = f.region
  window : g.window = f.window
  bitmap : g.bitmap = f.bitmap
  bitmapSize : g.bitmapSize = f.bitmapSize
  total : g.total = f.total
  reserved : g.reserved = f.reserved

variable {f g h : Frames} {p q : PhysAddr} {i : Nat}

theorem SamePlan.refl (f : Frames) : SamePlan f f := ⟨rfl, rfl, rfl, rfl, rfl, rfl, rfl⟩

theorem SamePlan.trans (a : SamePlan f g) (b : SamePlan g h) : SamePlan f h :=
  ⟨b.ready.trans a.ready, b.region.trans a.region, b.window.trans a.window,
    b.bitmap.trans a.bitmap, b.bitmapSize.trans a.bitmapSize, b.total.trans a.total,
    b.reserved.trans a.reserved⟩

theorem SamePlan.manages (a : SamePlan f g) : g.Manages p ↔ f.Manages p := by
  constructor
  · rintro ⟨h1, h2, h3⟩
    rw [a.region, a.reserved] at h2
    rw [a.region, a.total] at h3
    exact ⟨h1, h2, h3⟩
  · rintro ⟨h1, h2, h3⟩
    exact ⟨h1, by rw [a.region, a.reserved]; exact h2, by rw [a.region, a.total]; exact h3⟩

theorem SamePlan.planned (a : SamePlan f g) (hf : f.Planned) : g.Planned where
  ready := by rw [a.ready]; exact hf.ready
  aligned := by rw [a.region]; exact hf.aligned
  total_eq := by rw [a.region, a.total]; exact hf.total_eq
  bitmapSize_eq := by rw [a.bitmapSize, a.total]; exact hf.bitmapSize_eq
  bitmap_low := by rw [a.region, a.bitmap]; exact hf.bitmap_low
  bitmap_high := by rw [a.region, a.bitmap, a.bitmapSize, a.reserved]; exact hf.bitmap_high
  reserved_le := by rw [a.reserved, a.total]; exact hf.reserved_le

theorem SamePlan.indexOf (a : SamePlan f g) (p : PhysAddr) : g.indexOf p = f.indexOf p := by
  rw [Frames.indexOf, Frames.indexOf, a.region]

/-! ## Frames by number -/

theorem Planned.top (hf : f.Planned) : f.region.start.num + 4096 * f.total < 2 ^ 64 := by
  have h1 := f.region.start.num_lt
  have h2 := f.region.stop.num_lt
  have h3 := hf.total_eq
  omega

theorem num_addrOf (hf : f.Planned) (hi : i ≤ f.total) :
    (f.addrOf i).num = f.region.start.num + 4096 * i := by
  have := hf.top
  exact PhysAddr.num_up (by omega)

theorem indexOf_eq (hp : f.region.start.num ≤ p.num) :
    f.indexOf p = (p.num - f.region.start.num) / 4096 := by
  have h12 : (12 : UInt64).toNat % 64 = 12 := rfl
  rw [indexOf, UInt64.toNat_shiftRight, Nat.shiftRight_eq_div_pow]
  show (p.val - f.region.start.val).toNat / 2 ^ 12 = _
  rw [UInt64.toNat_sub_of_le _ _ (UInt64.le_iff_toNat_le.2 hp)]
  rfl

theorem manages_addrOf (hf : f.Planned) (hlow : f.reserved ≤ i) (hi : i < f.total) :
    f.Manages (f.addrOf i) := by
  have hnum := num_addrOf hf (Nat.le_of_lt hi)
  have := hf.aligned
  exact ⟨by omega, by omega, by omega⟩

theorem indexOf_addrOf (hf : f.Planned) (hi : i ≤ f.total) : f.indexOf (f.addrOf i) = i := by
  have hnum := num_addrOf hf hi
  rw [indexOf_eq (by omega), hnum]
  omega

theorem Manages.index (hf : f.Planned) (hp : f.Manages p) :
    f.reserved ≤ f.indexOf p ∧ f.indexOf p < f.total ∧ f.addrOf (f.indexOf p) = p := by
  have ha := hf.aligned
  have hpa := hp.aligned
  have hlow := hp.low
  have hhigh := hp.high
  have hidx := f.indexOf_eq (p := p) (by omega)
  have hlt : f.indexOf p < f.total := by omega
  refine ⟨by omega, hlt, PhysAddr.num_inj ?_⟩
  rw [num_addrOf hf (by omega)]
  omega

theorem Manages.ext (hf : f.Planned) (hp : f.Manages p) (hq : f.Manages q)
    (h : f.indexOf p = f.indexOf q) : p = q := by
  rw [← (hp.index hf).2.2, ← (hq.index hf).2.2, h]

/-- Two frames share no byte. -/
theorem Manages.apart (hp : f.Manages p) (hq : f.Manages q) (hne : p ≠ q) :
    p.num + 4096 ≤ q.num ∨ q.num + 4096 ≤ p.num := by
  have h1 := hp.aligned
  have h2 := hq.aligned
  have h3 : p.num ≠ q.num := fun h => hne (PhysAddr.num_inj h)
  omega

theorem waiting_eq (f : Frames) : f.waiting = f.pool.length := by
  rw [waiting, pool, List.length_drop, Array.length_toList]

/-- The next frame to be drawn waits before the others. -/
theorem pool_eq_cons (hp : f.parked[f.drawn]? = some p) :
    f.pool = p :: { f with drawn := f.drawn + 1 }.pool := by
  obtain ⟨hlt, hget⟩ := Array.getElem?_eq_some_iff.1 hp
  rw [pool, List.drop_eq_getElem_cons (by simpa using hlt), Array.getElem_toList, hget]
  rfl

/-- A frame that is parked waits behind the others. -/
theorem pool_push (hdrawn : f.drawn ≤ f.parked.size) (p : PhysAddr) :
    { f with parked := f.parked.push p }.pool = f.pool ++ [p] := by
  show (f.parked.push p).toList.drop f.drawn = _
  rw [Array.toList_push, List.drop_append_of_le_length (by simpa using hdrawn), pool]

end Frames

namespace Memory

/-! ## The store and its bitmap -/

/-- The frames that the bitmap does not mark. -/
def unmarked (m : Memory) : Finset Nat :=
  (Finset.range m.frames.total).filter fun i => m.marked i = false

/-- Bitmap, count of free frames and parked frames agree. -/
structure Consistent (m : Memory) : Prop where
  plan : m.frames.Planned
  shows : m.board.ram.Shows m.frames.window
  inside : m.board.ram.Has m.frames.region.start.num (4096 * m.frames.total)
  marked_reserved : ∀ i, i < m.frames.reserved → m.marked i = true
  marked_past : ∀ i, m.frames.total ≤ i → m.marked i = true
  free_eq : m.frames.free = m.unmarked.card
  parked_le : m.frames.parked.size ≤ parkLimit
  drawn_le : m.frames.drawn ≤ m.frames.parked.size
  pool_nodup : m.frames.pool.Nodup
  pool_managed : ∀ p ∈ m.frames.pool, m.frames.Manages p
  pool_marked : ∀ p ∈ m.frames.pool, m.marked (m.frames.indexOf p) = true

/-- What the store needs to serve requests: at least the free frames are counted as free, and none
of the reserved and the parked ones is free. -/
structure Usable (m : Memory) : Prop where
  plan : m.frames.Planned
  shows : m.board.ram.Shows m.frames.window
  inside : m.board.ram.Has m.frames.region.start.num (4096 * m.frames.total)
  marked_reserved : ∀ i, i < m.frames.reserved → m.marked i = true
  free_le : m.unmarked.card ≤ m.frames.free
  pool_managed : ∀ p ∈ m.frames.pool, m.frames.Manages p
  pool_marked : ∀ p ∈ m.frames.pool, m.marked (m.frames.indexOf p) = true

/-- The frame at `p` was handed out and has not come back. -/
structure Owned (m : Memory) (p : PhysAddr) : Prop where
  managed : m.frames.Manages p
  marked : m.marked (m.frames.indexOf p) = true
  not_parked : p ∉ m.frames.pool

/-- Frames that a request for a table can still be granted. -/
def supply (m : Memory) : Nat := m.frames.free + m.frames.waiting

/-- Outside the bitmap and the managed frames no byte differs. -/
def SameRest (m m' : Memory) : Prop :=
  ∀ n, m.board.ram.base.num ≤ n → ¬ m.InBitmap n →
    (∀ p, m.frames.Manages p → ¬ (p.num ≤ n ∧ n < p.num + 4096)) → m'.cell n = m.cell n

/-- The same frames are managed in the same RAM, and no byte of the rest of RAM differs. -/
structure Within (m m' : Memory) : Prop where
  plan : Frames.SamePlan m.frames m'.frames
  bank : Ram.SameBank m.board.ram m'.board.ram
  rest : SameRest m m'

/-- The frames that others own stay theirs with all their bytes, and outside the bitmap and the
managed frames no byte changes. -/
structure Spares (m m' : Memory) : Prop where
  consistent : Consistent m'
  plan : Frames.SamePlan m.frames m'.frames
  bank : Ram.SameBank m.board.ram m'.board.ram
  owned : ∀ p, m.Owned p → m'.Owned p
  cells : ∀ p, m.Owned p → Ram.SameOn m.board.ram m'.board.ram p.num (p.num + 4096)
  rest : SameRest m m'

/-- The frame at `p` was nobody's, and is now the caller's and zeroed. -/
structure Grants (m m' : Memory) (p : PhysAddr) : Prop where
  owned : m'.Owned p
  not_owned : ¬ m.Owned p
  zeroed : ∀ n, p.num ≤ n → n < p.num + 4096 → m'.cell n = 0
  supply : m'.supply + 1 = m.supply

variable {m m' m'' : Memory} {p q : PhysAddr} {i j n : Nat}

theorem Consistent.usable (h : Consistent m) : Usable m :=
  ⟨h.plan, h.shows, h.inside, h.marked_reserved, Nat.le_of_eq h.free_eq.symm, h.pool_managed,
    h.pool_marked⟩

theorem Usable.bitmapInside (h : Usable m) : BitmapInside m where
  shows := h.shows
  has := by
    have h1 := h.plan.bitmap_low
    have h2 := h.plan.bitmap_high
    have h3 := h.plan.reserved_le
    exact h.inside.mono h1 (by omega)

theorem Consistent.bitmapInside (h : Consistent m) : BitmapInside m := h.usable.bitmapInside

/-- What a step has to keep so that the store stays consistent. -/
theorem Consistent.step (h : Consistent m) (hplan : Frames.SamePlan m.frames m'.frames)
    (hbank : Ram.SameBank m.board.ram m'.board.ram)
    (hmark : ∀ i, i < m.frames.reserved ∨ m.frames.total ≤ i → m.marked i = true →
      m'.marked i = true)
    (hfree : m'.frames.free = m'.unmarked.card) (hparked : m'.frames.parked.size ≤ parkLimit)
    (hdrawn : m'.frames.drawn ≤ m'.frames.parked.size) (hnodup : m'.frames.pool.Nodup)
    (hpool : ∀ p ∈ m'.frames.pool,
      m.frames.Manages p ∧ m'.marked (m.frames.indexOf p) = true) : Consistent m' where
  plan := hplan.planned h.plan
  shows := by
    rw [hplan.window]
    exact hbank.shows h.shows
  inside := by
    rw [hplan.region, hplan.total]
    exact hbank.has.2 h.inside
  marked_reserved := by
    intro i hi
    rw [hplan.reserved] at hi
    exact hmark i (Or.inl hi) (h.marked_reserved i hi)
  marked_past := by
    intro i hi
    rw [hplan.total] at hi
    exact hmark i (Or.inr hi) (h.marked_past i hi)
  free_eq := hfree
  parked_le := hparked
  drawn_le := hdrawn
  pool_nodup := hnodup
  pool_managed := fun p hp => hplan.manages.2 (hpool p hp).1
  pool_marked := by
    intro p hp
    rw [hplan.indexOf]
    exact (hpool p hp).2

theorem Usable.has (h : Usable m) (hp : m.frames.Manages p) : m.board.ram.Has p.num 4096 := by
  have h1 := hp.low
  have h2 := hp.high
  exact h.inside.mono (by omega) h2

theorem Consistent.has (h : Consistent m) (hp : m.frames.Manages p) :
    m.board.ram.Has p.num 4096 :=
  h.usable.has hp

/-- The bitmap shares no byte with a managed frame. -/
theorem Usable.not_inBitmap (h : Usable m) (hp : m.frames.Manages p) (hn : p.num ≤ n) :
    ¬ m.InBitmap n := by
  intro hb
  have h1 := hp.low
  have h2 := h.plan.bitmap_high
  have h3 := hb.2
  omega

theorem Consistent.not_inBitmap (h : Consistent m) (hp : m.frames.Manages p) (hn : p.num ≤ n) :
    ¬ m.InBitmap n :=
  h.usable.not_inBitmap hp hn

theorem Owned.aligned (h : m.Owned p) : p.aligned = true :=
  (p.aligned_iff).2 h.managed.aligned

theorem mem_unmarked : i ∈ m.unmarked ↔ i < m.frames.total ∧ m.marked i = false := by
  simp [unmarked]

theorem Spares.refl (h : Consistent m) : Spares m m :=
  ⟨h, Frames.SamePlan.refl _, Ram.SameBank.refl _, fun _ hp => hp,
    fun p _ => Ram.SameOn.refl _ p.num (p.num + 4096), fun _ _ _ _ => rfl⟩

theorem Within.trans (h : Within m m') (h' : Within m' m'') : Within m m'' where
  plan := h.plan.trans h'.plan
  bank := h.bank.trans h'.bank
  rest := by
    intro n hn hb hf
    have hb' : ¬ m'.InBitmap n := by rwa [InBitmap, h.plan.bitmap, h.plan.bitmapSize]
    rw [h'.rest n (by rw [h.bank.base]; exact hn) hb' fun p hp => hf p (h.plan.manages.1 hp),
      h.rest n hn hb hf]

theorem Spares.within (h : Spares m m') : Within m m' := ⟨h.plan, h.bank, h.rest⟩

theorem Spares.trans (h : Spares m m') (h' : Spares m' m'') : Spares m m'' where
  consistent := h'.consistent
  plan := h.plan.trans h'.plan
  bank := h.bank.trans h'.bank
  owned := fun p hp => h'.owned p (h.owned p hp)
  cells := fun p hp => (h.cells p hp).trans (h'.cells p (h.owned p hp))
  rest := (h.within.trans h'.within).rest

/-! ## Claiming the lowest free frame -/

theorem firstFree_eq_some (hi : m.firstFree = some i) :
    i < m.frames.total ∧ m.marked i = false ∧ ∀ j, j < i → m.marked j = true := by
  obtain ⟨-, hsize, htotal, hclear, hset⟩ := firstClear_eq_some hi
  refine ⟨htotal, ?_, ?_⟩
  · rw [marked_eq (by omega), hclear]
  · intro j hj
    rw [marked_eq (by omega), hset j (by omega) hj]

theorem firstFree_eq_none (h : m.frames.Planned) (hi : m.firstFree = none) : m.unmarked = ∅ := by
  refine Finset.eq_empty_of_forall_notMem fun j hj => ?_
  obtain ⟨htotal, hclear⟩ := mem_unmarked.1 hj
  have hsize := h.bitmapSize_eq
  -- Every byte below the total was searched.
  have hset := firstClear_eq_none hi (j := j) (by omega) (by omega) htotal
  rw [marked_eq (by omega), hset] at hclear
  cases hclear

/-- What claiming frame `i` does: it is marked and counted, and nothing else happens. -/
structure Claims (m m' : Memory) (i : Nat) : Prop where
  below : i < m.frames.total
  unmarked : m.marked i = false
  first : ∀ j, j < i → m.marked j = true
  frames : m'.frames = { m.frames with free := m.frames.free - 1 }
  bank : Ram.SameBank m.board.ram m'.board.ram
  cells : ∀ n, m.board.ram.base.num ≤ n → ¬ m.InBitmap n → m'.cell n = m.cell n
  marked : ∀ j, m'.marked j = if j = i then true else m.marked j

theorem claim_of_unready (h : m.frames.ready = false) : claim m = .ok none m := by
  rw [claim, run_bind_ok (run_get m), h, if_pos (by rfl)]
  rfl

/-- The lowest frame that is not marked is claimed, unless the count or the bitmap says that none
is free. -/
theorem claim_cases (hplan : m.frames.Planned) (hin : BitmapInside m) :
    (claim m = .ok none m ∧ (m.frames.free = 0 ∨ m.unmarked = ∅)) ∨
      ∃ i m', claim m = .ok (some (m.frames.addrOf i)) m' ∧ Claims m m' i := by
  by_cases hfree : m.frames.free = 0
  · exact Or.inl ⟨by simp [claim, run_bind, hfree], Or.inl hfree⟩
  · cases hi : m.firstFree with
    | none =>
      refine Or.inl ⟨?_, Or.inr (firstFree_eq_none hplan hi)⟩
      simp [claim, run_bind, hplan.ready, hfree, hi]
    | some i =>
      obtain ⟨hlt, hclear, hfirst⟩ := firstFree_eq_some hi
      obtain ⟨m₁, hmark, hm₁⟩ := mark_spec hin i true
      have hsize := hplan.bitmapSize_eq
      refine Or.inr ⟨i, { m₁ with frames := { m₁.frames with free := m₁.frames.free - 1 } }, ?_, ?_⟩
      · simp only [claim, run_bind, run_get, run_ite, hplan.ready, hfree, hi, hmark,
          run_updateFrames, run_pure, Bool.not_true, decide_false, Bool.or_self, Bool.false_eq_true,
          if_false]
      · refine ⟨hlt, hclear, hfirst, by rw [hm₁.frames], hm₁.bank, hm₁.cells, fun j => ?_⟩
        have hi8 : i / 8 < m.frames.bitmapSize := by omega
        have hj := hm₁.marked j
        simp only [hi8, and_true] at hj
        exact hj

/-- A frame is claimed unless none is free. -/
theorem claim_spec (h : Consistent m) :
    (claim m = .ok none m ∧ m.frames.free = 0) ∨
      ∃ i m', claim m = .ok (some (m.frames.addrOf i)) m' ∧ Claims m m' i := by
  rcases claim_cases h.plan h.bitmapInside with ⟨hrun, hnone⟩ | hsome
  · refine Or.inl ⟨hrun, hnone.elim id fun hempty => ?_⟩
    rw [h.free_eq, hempty, Finset.card_empty]
  · exact Or.inr hsome

theorem card_unmarked_of_set (hmarked : ∀ j, m'.marked j = if j = i then true else m.marked j)
    (htotal : m'.frames.total = m.frames.total) (hi : i < m.frames.total)
    (hclear : m.marked i = false) : m'.unmarked.card + 1 = m.unmarked.card := by
  have hset : m'.unmarked = m.unmarked.erase i := by
    ext j
    rw [mem_unmarked, Finset.mem_erase, mem_unmarked, hmarked, htotal]
    by_cases hj : j = i <;> simp [hj]
  rw [hset]
  exact Finset.card_erase_add_one (mem_unmarked.2 ⟨hi, hclear⟩)

/-- A claimed frame was free, and nothing that is owned or parked is touched. -/
theorem Claims.spares (h : Consistent m) (c : Claims m m' i) : Spares m m' := by
  -- Only the count of free frames changes, which is no part of the plan.
  have hplan : Frames.SamePlan m.frames m'.frames := by
    rw [c.frames]
    exact ⟨rfl, rfl, rfl, rfl, rfl, rfl, rfl⟩
  have hpool : m'.frames.pool = m.frames.pool := by rw [c.frames]; rfl
  have hkeep : ∀ j, m.marked j = true → m'.marked j = true := by
    intro j hj
    rw [c.marked, hj, ite_self]
  have hcons : Consistent m' := by
    refine h.step hplan c.bank (fun j _ hj => hkeep j hj) ?_ ?_ ?_ ?_ ?_
    · have hcard := card_unmarked_of_set c.marked hplan.total c.below c.unmarked
      rw [c.frames]
      show m.frames.free - 1 = _
      rw [h.free_eq, ← hcard, Nat.add_sub_cancel]
    · rw [c.frames]
      exact h.parked_le
    · rw [c.frames]
      exact h.drawn_le
    · rw [hpool]
      exact h.pool_nodup
    · intro p hp
      rw [hpool] at hp
      exact ⟨h.pool_managed p hp, hkeep _ (h.pool_marked p hp)⟩
  refine ⟨hcons, hplan, c.bank, ?_, ?_, fun n hn hb _ => c.cells n hn hb⟩
  · rintro p ⟨hp, hmark, hpark⟩
    exact ⟨hplan.manages.2 hp, by rw [hplan.indexOf]; exact hkeep _ hmark, by rwa [hpool]⟩
  · intro p hp n hn _
    have hlow := (h.has hp.managed).1
    exact c.cells n (by omega) (h.not_inBitmap hp.managed hn)

theorem Claims.reserved_le (h : Usable m) (c : Claims m m' i) : m.frames.reserved ≤ i := by
  by_contra hlt
  have hmark := h.marked_reserved i (by omega)
  rw [c.unmarked] at hmark
  cases hmark

/-- The claimed frame was nobody's and was not parked; now it is the claimant's. -/
theorem Claims.taken (h : Consistent m) (c : Claims m m' i) :
    m.frames.Manages (m.frames.addrOf i) ∧ ¬ m.Owned (m.frames.addrOf i) ∧
      m.frames.addrOf i ∉ m.frames.pool ∧ m'.Owned (m.frames.addrOf i) := by
  have hman := Frames.manages_addrOf h.plan (c.reserved_le h.usable) c.below
  have hidx := Frames.indexOf_addrOf h.plan (Nat.le_of_lt c.below)
  have hspares := c.spares h
  have hpark : m.frames.addrOf i ∉ m.frames.pool := by
    intro hp
    have hmark := h.pool_marked _ hp
    rw [hidx, c.unmarked] at hmark
    cases hmark
  refine ⟨hman, ?_, hpark, hspares.plan.manages.2 hman, ?_, ?_⟩
  · intro ho
    have hmark := ho.marked
    rw [hidx, c.unmarked] at hmark
    cases hmark
  · rw [hspares.plan.indexOf, hidx, c.marked, if_pos rfl]
  · rw [c.frames]
    exact hpark

/-! ## Steps that leave the bitmap alone -/

/-- RAM is the same, and so is what the store knows of its frames. Counters, remembered events,
the log and the trace may differ. -/
structure Keeps (m m' : Memory) : Prop where
  ram : m'.board.ram = m.board.ram
  plan : Frames.SamePlan m.frames m'.frames
  free : m'.frames.free = m.frames.free
  parked : m'.frames.parked = m.frames.parked
  drawn : m'.frames.drawn = m.frames.drawn

/-- RAM is the same, and so is what the store knows of its frames, but for which are parked. -/
structure Repools (m m' : Memory) : Prop where
  ram : m'.board.ram = m.board.ram
  plan : Frames.SamePlan m.frames m'.frames
  free : m'.frames.free = m.frames.free

theorem Repools.cell (r : Repools m m') (n : Nat) : m'.cell n = m.cell n := by
  rw [Memory.cell, Memory.cell, r.ram]

theorem Repools.bank (r : Repools m m') : Ram.SameBank m.board.ram m'.board.ram := by
  rw [r.ram]
  exact Ram.SameBank.refl _

theorem Repools.marked (r : Repools m m') (i : Nat) : m'.marked i = m.marked i := by
  rw [Memory.marked, Memory.marked, bitmapByte, bitmapByte, Frames.bitmapByte, Frames.bitmapByte,
    r.ram, r.plan.window, r.plan.bitmap, r.plan.bitmapSize]

theorem Repools.unmarked (r : Repools m m') : m'.unmarked = m.unmarked := by
  simp only [Memory.unmarked, r.marked, r.plan.total]

/-- A frame that is not parked keeps its owner. -/
theorem Repools.owned (r : Repools m m') (hp : m.Owned p) (hpool : p ∉ m'.frames.pool) :
    m'.Owned p where
  managed := r.plan.manages.2 hp.managed
  marked := by
    rw [r.marked, r.plan.indexOf]
    exact hp.marked
  not_parked := hpool

/-- All that has to be looked at are the frames that are parked now. -/
theorem Repools.consistent (r : Repools m m') (h : Consistent m)
    (hparked : m'.frames.parked.size ≤ parkLimit)
    (hdrawn : m'.frames.drawn ≤ m'.frames.parked.size) (hnodup : m'.frames.pool.Nodup)
    (hpool : ∀ p ∈ m'.frames.pool,
      m.frames.Manages p ∧ m.marked (m.frames.indexOf p) = true) : Consistent m' := by
  refine h.step r.plan r.bank (fun i _ hi => (r.marked i).trans hi) ?_ hparked hdrawn hnodup
    fun p hp => ?_
  · rw [r.free, r.unmarked]
    exact h.free_eq
  · rw [r.marked]
    exact hpool p hp

theorem Repools.spares (r : Repools m m') (hm' : Consistent m')
    (howned : ∀ p, m.Owned p → p ∉ m'.frames.pool) : Spares m m' where
  consistent := hm'
  plan := r.plan
  bank := r.bank
  owned := fun p hp => r.owned hp (howned p hp)
  cells := fun _ _ n _ _ => r.cell n
  rest := fun n _ _ _ => r.cell n

theorem Keeps.repools (k : Keeps m m') : Repools m m' := ⟨k.ram, k.plan, k.free⟩

theorem Keeps.cell (k : Keeps m m') (n : Nat) : m'.cell n = m.cell n := k.repools.cell n

theorem Keeps.marked (k : Keeps m m') (i : Nat) : m'.marked i = m.marked i := k.repools.marked i

theorem Keeps.pool (k : Keeps m m') : m'.frames.pool = m.frames.pool := by
  rw [Frames.pool, k.parked, k.drawn, Frames.pool]

theorem Keeps.supply (k : Keeps m m') : m'.supply = m.supply := by
  rw [Memory.supply, Memory.supply, Frames.waiting, Frames.waiting, k.free, k.parked, k.drawn]

theorem Keeps.owned (k : Keeps m m') (hp : m.Owned p) : m'.Owned p :=
  k.repools.owned hp (by rw [k.pool]; exact hp.not_parked)

theorem Keeps.consistent (k : Keeps m m') (h : Consistent m) : Consistent m' := by
  refine k.repools.consistent h ?_ ?_ ?_ ?_
  · rw [k.parked]
    exact h.parked_le
  · rw [k.parked, k.drawn]
    exact h.drawn_le
  · rw [k.pool]
    exact h.pool_nodup
  · rw [k.pool]
    exact fun p hp => ⟨h.pool_managed p hp, h.pool_marked p hp⟩

theorem Keeps.spares (k : Keeps m m') (h : Consistent m) : Spares m m' := by
  refine k.repools.spares (k.consistent h) fun p hp => ?_
  rw [k.pool]
  exact hp.not_parked

/-! ## Writing into a frame -/

/-- No byte changes but bytes of the frame at `p`. -/
structure Touches (m m' : Memory) (p : PhysAddr) : Prop where
  frames : m'.frames = m.frames
  bank : Ram.SameBank m.board.ram m'.board.ram
  cells : ∀ n, m.board.ram.base.num ≤ n → n < p.num ∨ p.num + 4096 ≤ n → m'.cell n = m.cell n

theorem Touches.plan (t : Touches m m' p) : Frames.SamePlan m.frames m'.frames := by
  rw [t.frames]
  exact Frames.SamePlan.refl _

theorem Touches.within (t : Touches m m' p) (hp : m.frames.Manages p) : Within m m' where
  plan := t.plan
  bank := t.bank
  rest := by
    intro n hn _ hf
    have hout := hf p hp
    exact t.cells n hn (by omega)

theorem Touches.supply (t : Touches m m' p) : m'.supply = m.supply := by
  rw [Memory.supply, Memory.supply, t.frames]

theorem Touches.marked (t : Touches m m' p) (h : Usable m) (hp : m.frames.Manages p) (i : Nat) :
    m'.marked i = m.marked i := by
  have hb := h.bitmapInside
  refine marked_congr hb ⟨?_, ?_⟩ (by rw [t.frames]) (by rw [t.frames]) ?_ i
  · rw [t.frames]
    exact t.bank.shows hb.shows
  · rw [t.frames]
    exact t.bank.has.2 hb.has
  · intro n hn
    have hbase := hb.has.1
    have hlow := hn.1
    refine t.cells n (by omega) ?_
    by_contra hin
    exact h.not_inBitmap hp (by omega) hn

theorem Touches.owned_iff (t : Touches m m' p) (h : Usable m) (hp : m.frames.Manages p) :
    m'.Owned q ↔ m.Owned q := by
  constructor
  · rintro ⟨h1, h2, h3⟩
    rw [t.frames] at h1 h3
    rw [t.marked h hp, t.frames] at h2
    exact ⟨h1, h2, h3⟩
  · rintro ⟨h1, h2, h3⟩
    exact ⟨by rwa [t.frames], by rw [t.marked h hp, t.frames]; exact h2, by rwa [t.frames]⟩

theorem Touches.owned (t : Touches m m' p) (h : Consistent m) (hp : m.frames.Manages p) :
    m'.Owned q ↔ m.Owned q :=
  t.owned_iff h.usable hp

theorem Touches.consistent (t : Touches m m' p) (h : Consistent m) (hp : m.frames.Manages p) :
    Consistent m' := by
  have hmark := t.marked h.usable hp
  refine h.step t.plan t.bank (fun i _ hi => (hmark i).trans hi) ?_ ?_ ?_ ?_ ?_
  · simp only [unmarked, hmark, t.frames]
    exact h.free_eq
  · rw [t.frames]
    exact h.parked_le
  · rw [t.frames]
    exact h.drawn_le
  · rw [t.frames]
    exact h.pool_nodup
  · intro q hq
    rw [t.frames] at hq
    exact ⟨h.pool_managed q hq, (hmark _).trans (h.pool_marked q hq)⟩

/-- Another frame keeps its bytes. -/
theorem Touches.sameOn (t : Touches m m' p) (h : Consistent m) (hp : m.frames.Manages p)
    (hq : m.frames.Manages q) (hne : q ≠ p) :
    Ram.SameOn m.board.ram m'.board.ram q.num (q.num + 4096) := by
  intro n hn hn'
  have hlow := (h.has hq).1
  have hap := hp.apart hq hne.symm
  exact t.cells n (by omega) (by omega)

theorem touches_zero (h : Usable m) (hp : m.frames.Manages p) :
    ∃ z, zero p m = .ok () z ∧ Touches m z p ∧
      ∀ n, p.num ≤ n → n < p.num + 4096 → z.cell n = 0 := by
  have hhas := h.has hp
  have hlow := hhas.1
  have hcell := fun n hn => Ram.cell_clear h.shows hhas (j := n) hn
  refine ⟨m.stored (.clear (m.frames.window.reach p) 4096), rfl,
    ⟨rfl, Ram.sameBank_clear .., fun n hn hout => ?_⟩, fun n hn hn' => ?_⟩
  · exact (hcell n hn).trans (if_neg (by omega))
  · exact (hcell n (by omega)).trans (if_pos ⟨hn, hn'⟩)

/-- A byte of a frame is written. -/
theorem touches_write (h : Usable m) (hp : m.frames.Manages p) (hi : i < 4096) (v : UInt8) :
    Touches m (m.stored (.byte (m.frames.window.reach (p.up i)) v)) p := by
  have hhas := h.has hp
  have hup : (p.up i).num = p.num + i := hhas.num_up h.shows.top hi
  refine ⟨rfl, Ram.sameBank_setByte .., fun n hn hout => ?_⟩
  have hcell := Ram.cell_setByte h.shows (p := p.up i)
    (by rw [hup]; exact hhas.mono (by omega) (by omega)) v hn
  rw [if_neg (by omega)] at hcell
  exact hcell

/-- A frame that was nobody's and is owned now is zeroed for its owner. -/
theorem Spares.zeroed (h : Spares m m') (hp : m'.Owned p) (hnot : ¬ m.Owned p) :
    ∃ z, zero p m' = .ok () z ∧ Spares m z ∧ z.Owned p ∧ z.frames = m'.frames ∧
      ∀ n, p.num ≤ n → n < p.num + 4096 → z.cell n = 0 := by
  have hc := h.consistent
  obtain ⟨z, hrun, ht, hzero⟩ := touches_zero hc.usable hp.managed
  refine ⟨z, hrun, ⟨ht.consistent hc hp.managed, h.plan.trans ht.plan, h.bank.trans ht.bank,
    ?_, ?_, ?_⟩, (ht.owned hc hp.managed).2 hp, ht.frames, hzero⟩
  · exact fun q hq => (ht.owned hc hp.managed).2 (h.owned q hq)
  · intro q hq
    have hne : q ≠ p := fun he => hnot (by rw [← he]; exact hq)
    exact (h.cells q hq).trans (ht.sameOn hc hp.managed (h.owned q hq).managed hne)
  · exact (h.within.trans (ht.within hp.managed)).rest

end Memory

end HighHalf
