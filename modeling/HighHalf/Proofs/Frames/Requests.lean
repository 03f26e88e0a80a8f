import HighHalf.Proofs.Frames.Store

/-!
# Requests to the frame store

What each request to the store does, one statement for each. A request never touches a frame
that somebody owns, a frame that is granted was nobody's and comes zeroed, and the number of
frames that can still be granted for tables is known after each request.
-/

namespace HighHalf

namespace Frames

/-- The store after the frame at `p` was taken and counted. -/
def counted (f : Frames) (p : PhysAddr) : Frames :=
  { f with
    stats := { f.stats with
      allocations := f.stats.allocations + 1
      current := f.stats.current + 1
      peak := max f.stats.peak (f.stats.current + 1) } }.remember (.alloc p)

/-- The store after the frame at `p` was taken, counted and parked. -/
def shelved (f : Frames) (p : PhysAddr) : Frames :=
  { f.counted p with parked := f.parked.push p }

theorem pool_shelved {f : Frames} (hdrawn : f.drawn ≤ f.parked.size) (p : PhysAddr) :
    (f.shelved p).pool = f.pool ++ [p] := pool_push hdrawn p

/-- The store after the frame at `p` was given back and counted. -/
def gotBack (f : Frames) (p : PhysAddr) : Frames :=
  { f with
    free := f.free + 1
    stats := { f.stats with
      frees := f.stats.frees + 1
      current := f.stats.current - 1 } }.remember (.free p)

/-- The store after a request for which no frame was free. -/
def shortOf (f : Frames) : Frames :=
  { f with stats := { f.stats with failed := f.stats.failed + 1 } }

end Frames

namespace Memory

variable {m m' : Memory} {p q : PhysAddr} {i n : Nat}

theorem Claims.supply (h : Consistent m) (c : Claims m m' i) : m'.supply + 1 = m.supply := by
  have hpos : 0 < m.frames.free := by
    rw [h.free_eq, Finset.card_pos]
    exact ⟨i, mem_unmarked.2 ⟨c.below, c.unmarked⟩⟩
  rw [Memory.supply, Memory.supply, c.frames]
  show m.frames.free - 1 + m.frames.waiting + 1 = _
  omega

/-! ## One frame -/

/-- Counting a frame that was taken. -/
theorem countAlloc_spec (p : PhysAddr) (m : Memory) :
    ∃ m', countAlloc p m = .ok () m' ∧ Keeps m m' ∧ m' = { m with frames := m.frames.counted p } :=
  ⟨_, rfl, ⟨rfl, ⟨rfl, rfl, rfl, rfl, rfl, rfl, rfl⟩, rfl, rfl, rfl⟩, rfl⟩

theorem keeps_noted (m : Memory) (l : Level) (c : Component) (text : String) :
    Keeps m (m.noted l c text) := ⟨rfl, Frames.SamePlan.refl _, rfl, rfl, rfl⟩

theorem Keeps.noted (k : Keeps m m') (l : Level) (c : Component) (text : String) :
    Keeps m (m'.noted l c text) := ⟨k.ram, k.plan, k.free, k.parked, k.drawn⟩

/-- Another board over the same RAM is nothing to the frame store. -/
theorem keeps_board {b : Board} (h : b.ram = m.board.ram) : Keeps m { m with board := b } :=
  ⟨h, Frames.SamePlan.refl _, rfl, rfl, rfl⟩

/-- A frame that is claimed is zeroed, counted and granted. -/
theorem run_allocate {m₁ z : Memory} (hclaim : claim m = .ok (some p) m₁)
    (hzero : zero p m₁ = .ok () z) :
    allocate m = .ok (some p) { z with frames := z.frames.counted p } :=
  calc allocate m
      = (do zero p
            countAlloc p
            return some p) m₁ := run_bind_ok hclaim
    _ = (do countAlloc p
            return some p) z := run_bind_ok hzero
    _ = .ok (some p) { z with frames := z.frames.counted p } := rfl

/-- Where no frame is free the request is counted and logged. -/
theorem run_allocate_none (hclaim : claim m = .ok none m) :
    ∃ text, allocate m = .ok none (Memory.noted { m with frames := m.frames.shortOf }
      .warn .frames text) :=
  ⟨_, run_bind_ok hclaim⟩

/-- A frame is granted while one is free; else nothing changes but counters and log. -/
theorem allocate_spec (h : Consistent m) :
    (∃ m', allocate m = .ok none m' ∧ Keeps m m' ∧ m.frames.free = 0) ∨
      ∃ p m', allocate m = .ok (some p) m' ∧ Spares m m' ∧ Grants m m' p := by
  rcases claim_spec h with ⟨hrun, hfree⟩ | ⟨i, m₁, hrun, hclaim⟩
  · obtain ⟨text, hnone⟩ := run_allocate_none hrun
    refine Or.inl ⟨_, hnone, ?_, hfree⟩
    exact ⟨rfl, ⟨rfl, rfl, rfl, rfl, rfl, rfl, rfl⟩, rfl, rfl, rfl⟩
  · obtain ⟨-, hnot, -, hown⟩ := hclaim.taken h
    obtain ⟨z, hzero, hspares, hown₂, hframes, hcell⟩ := (hclaim.spares h).zeroed hown hnot
    obtain ⟨m', -, hkeeps, hm'⟩ := countAlloc_spec (m.frames.addrOf i) z
    refine Or.inr ⟨m.frames.addrOf i, m', hm' ▸ run_allocate hrun hzero, ?_, ?_⟩
    · exact hspares.trans (hkeeps.spares hspares.consistent)
    · refine ⟨hkeeps.owned hown₂, hnot, ?_, ?_⟩
      · intro n hn hn'
        rw [hkeeps.cell]
        exact hcell n hn hn'
      · rw [hkeeps.supply, Memory.supply, hframes]
        exact hclaim.supply h

/-! ## Frames for tables -/

/-- Where none is parked, a frame for a table is any free one. -/
theorem run_allocateTable_empty (hp : m.frames.parked[m.frames.drawn]? = none) :
    allocateTable m = allocate m := by
  rw [allocateTable, run_bind_ok (run_get m), hp]

/-- The next parked frame is handed out zeroed. -/
theorem run_allocateTable_next {z : Memory} (hp : m.frames.parked[m.frames.drawn]? = some p)
    (hzero : zero p { m with frames := { m.frames with drawn := m.frames.drawn + 1 } }
      = .ok () z) : allocateTable m = .ok (some p) z := by
  rw [allocateTable, run_bind_ok (run_get m), hp]
  exact (run_bind_ok (run_updateFrames _ m)).trans (run_bind_ok hzero)

/-- A parked frame that is counted as drawn has an owner; bytes and marks stay as they are. -/
theorem draw_spec (h : Consistent m) (hp : m.frames.parked[m.frames.drawn]? = some p)
    (hm' : m' = { m with frames := { m.frames with drawn := m.frames.drawn + 1 } }) :
    Spares m m' ∧ m'.Owned p ∧ ¬ m.Owned p ∧ m'.supply + 1 = m.supply := by
  have hrepools : Repools m m' := by
    rw [hm']
    exact ⟨rfl, ⟨rfl, rfl, rfl, rfl, rfl, rfl, rfl⟩, rfl⟩
  have hpool : m.frames.pool = p :: m'.frames.pool := by
    rw [hm']
    exact Frames.pool_eq_cons hp
  have hmem : p ∈ m.frames.pool := by
    rw [hpool]
    exact List.mem_cons_self
  have hrest : ∀ q ∈ m'.frames.pool, q ∈ m.frames.pool := fun q hq => by
    rw [hpool]
    exact List.mem_cons_of_mem p hq
  obtain ⟨hfresh, hnodup⟩ : p ∉ m'.frames.pool ∧ m'.frames.pool.Nodup := by
    rw [← List.nodup_cons, ← hpool]
    exact h.pool_nodup
  have hcons : Consistent m' := by
    refine hrepools.consistent h ?_ ?_ hnodup fun q hq =>
      ⟨h.pool_managed q (hrest q hq), h.pool_marked q (hrest q hq)⟩
    · rw [hm']
      exact h.parked_le
    · rw [hm']
      exact (Array.getElem?_eq_some_iff.1 hp).1
  refine ⟨hrepools.spares hcons fun q hq hmem' => hq.not_parked (hrest q hmem'),
    ⟨hrepools.plan.manages.2 (h.pool_managed p hmem), ?_, hfresh⟩, fun ho => ho.not_parked hmem, ?_⟩
  · rw [hrepools.marked, hrepools.plan.indexOf]
    exact h.pool_marked p hmem
  · rw [supply, supply, Frames.waiting_eq, Frames.waiting_eq, hpool, hrepools.free,
      List.length_cons]
    omega

/-- A frame for a table is granted while one is parked or free; else nothing changes but
counters and log. -/
theorem allocateTable_spec (h : Consistent m) :
    (∃ m', allocateTable m = .ok none m' ∧ Keeps m m' ∧ m.supply = 0) ∨
      ∃ p m', allocateTable m = .ok (some p) m' ∧ Spares m m' ∧ Grants m m' p := by
  cases hp : m.frames.parked[m.frames.drawn]? with
  | none =>
    have hrun := run_allocateTable_empty hp
    have hwait : m.frames.waiting = 0 := by
      rw [Array.getElem?_eq_none_iff] at hp
      rw [Frames.waiting]
      omega
    rcases allocate_spec h with ⟨m', ha, hkeeps, hfree⟩ | hsome
    · refine Or.inl ⟨m', hrun.trans ha, hkeeps, ?_⟩
      rw [supply, hfree, hwait]
    · obtain ⟨p, m', ha, hs⟩ := hsome
      exact Or.inr ⟨p, m', hrun.trans ha, hs⟩
  | some p =>
    obtain ⟨hspares₁, hown₁, hnot, hsupply⟩ := draw_spec h hp rfl
    obtain ⟨m₂, hzero, hspares, hown, hframes, hcell⟩ := hspares₁.zeroed hown₁ hnot
    refine Or.inr ⟨p, m₂, run_allocateTable_next hp hzero, hspares, hown, hnot, hcell, ?_⟩
    rw [supply, hframes]
    exact hsupply

/-- A request for a table that is not granted finds no frame and leaves none. -/
theorem supply_of_none (h : Consistent m) (hrun : allocateTable m = .ok none m') :
    m'.supply = 0 := by
  rcases allocateTable_spec h with ⟨m₁, hnone, hkeeps, hsupply⟩ | ⟨p, m₁, hsome, -⟩
  · cases hrun.symm.trans hnone
    exact hkeeps.supply.trans hsupply
  · cases hrun.symm.trans hsome

/-- The owner of `p` has set it aside. -/
structure Parks (m m' : Memory) (p : PhysAddr) : Prop where
  consistent : Consistent m'
  plan : Frames.SamePlan m.frames m'.frames
  board : m'.board = m.board
  owned : ∀ q, m.Owned q → q ≠ p → m'.Owned q
  supply : m'.supply = m.supply + 1

theorem parks_shelved (h : Consistent m) (hroom : m.frames.parked.size < parkLimit)
    (hown : m.Owned p) : Parks m { m with frames := m.frames.shelved p } p := by
  have hrepools : Repools m { m with frames := m.frames.shelved p } :=
    ⟨rfl, ⟨rfl, rfl, rfl, rfl, rfl, rfl, rfl⟩, rfl⟩
  have hpool := Frames.pool_shelved h.drawn_le p
  constructor
  case consistent =>
    refine hrepools.consistent h ?_ ?_ ?_ fun q hq => ?_
    · exact (Array.size_push p).trans_le hroom
    · exact h.drawn_le.trans ((Nat.le_succ _).trans_eq (Array.size_push p).symm)
    · rw [hpool, ← List.concat_eq_append]
      exact h.pool_nodup.concat hown.not_parked
    · rw [hpool, List.mem_append, List.mem_singleton] at hq
      rcases hq with hq | rfl
      · exact ⟨h.pool_managed q hq, h.pool_marked q hq⟩
      · exact ⟨hown.managed, hown.marked⟩
  case plan => exact hrepools.plan
  case board => rfl
  case owned =>
    refine fun q hq hne => hrepools.owned hq ?_
    rw [hpool, List.mem_append, List.mem_singleton]
    exact not_or.2 ⟨hq.not_parked, hne⟩
  case supply =>
    rw [supply, supply, Frames.waiting_eq, Frames.waiting_eq, hpool, hrepools.free,
      List.length_append, List.length_singleton]
    omega

/-- A frame that is claimed and set aside is used, but nobody owns it. -/
theorem Claims.spares_shelved (h : Consistent m) (hclaim : Claims m m' i)
    (hroom : m.frames.parked.size < parkLimit) :
    Spares m { m' with frames := m'.frames.shelved (m.frames.addrOf i) } ∧
      Memory.supply { m' with frames := m'.frames.shelved (m.frames.addrOf i) } = m.supply := by
  obtain ⟨hman, hnot, hfresh, hown⟩ := hclaim.taken h
  have hspares := hclaim.spares h
  have hparked : m'.frames.parked = m.frames.parked := by rw [hclaim.frames]
  have hparks := parks_shelved hspares.consistent (by rwa [hparked]) hown
  refine ⟨⟨hparks.consistent, hspares.plan.trans hparks.plan, hspares.bank, ?_, hspares.cells,
    hspares.rest⟩, hparks.supply.trans (hclaim.supply h)⟩
  intro q hq
  -- The frame that was claimed had no owner before.
  refine hparks.owned q (hspares.owned q hq) ?_
  rintro rfl
  exact hnot hq

/-! ## Parking several -/

/-- Where no frame is free none is parked. -/
theorem run_parkUpTo_none (hclaim : claim m = .ok none m) (n : Nat) :
    parkUpTo n m = .ok 0 m := by
  cases n with
  | zero => rfl
  | succ n =>
    rw [parkUpTo, run_bind_ok (run_get m)]
    by_cases hroom : m.frames.parked.size < parkLimit
    · rw [if_pos hroom]
      exact run_bind_ok hclaim
    · rw [if_neg hroom]
      rfl

/-- Where there is no room none is parked. -/
theorem run_parkUpTo_full (hroom : ¬ m.frames.parked.size < parkLimit) (n : Nat) :
    parkUpTo n m = .ok 0 m := by
  cases n with
  | zero => rfl
  | succ n =>
    rw [parkUpTo, run_bind_ok (run_get m), if_neg hroom]
    rfl

/-- One frame is claimed, counted and parked, and then the others. -/
theorem run_parkUpTo_succ {m₁ : Memory} {k : Nat} (hroom : m.frames.parked.size < parkLimit)
    (hclaim : claim m = .ok (some p) m₁)
    (hrest : parkUpTo n { m₁ with frames := m₁.frames.shelved p } = .ok k m') :
    parkUpTo (n + 1) m = .ok (k + 1) m' := by
  obtain ⟨m₂, hcount, -, rfl⟩ := countAlloc_spec p m₁
  rw [parkUpTo, run_bind_ok (run_get m), if_pos hroom, run_bind_ok hclaim]
  dsimp only
  rw [run_bind_ok hcount]
  exact run_bind_ok hrest

/-- What claiming a frame, counting it and parking it keeps, parking several keeps. -/
theorem parkUpTo_induct {P : Memory → Prop}
    (hP : ∀ m, P m → m.frames.Planned ∧ BitmapInside m)
    (hstep : ∀ m m₁ i, P m → m.frames.parked.size < parkLimit → Claims m m₁ i →
      P { m₁ with frames := m₁.frames.shelved (m.frames.addrOf i) }) (n : Nat) (h : P m) :
    ∃ k m', parkUpTo n m = .ok k m' ∧ P m' := by
  induction n generalizing m with
  | zero => exact ⟨0, m, rfl, h⟩
  | succ n ih =>
    by_cases hroom : m.frames.parked.size < parkLimit
    · rcases claim_cases (hP m h).1 (hP m h).2 with ⟨hclaim, -⟩ | ⟨i, m₁, hclaim, hclaims⟩
      · exact ⟨0, m, run_parkUpTo_none hclaim _, h⟩
      · obtain ⟨k, m', hrest, hm'⟩ := ih (hstep m m₁ i h hroom hclaims)
        exact ⟨k + 1, m', run_parkUpTo_succ hroom hclaim hrest, hm'⟩
    · exact ⟨0, m, run_parkUpTo_full hroom _, h⟩

/-- Parking is a series of frames parked and a line of the log. -/
theorem run_park {k : Nat} (hrun : parkUpTo (min n parkLimit) m = .ok k m') :
    ∃ l text, park n m = .ok k (m'.noted l .frames text) := by
  by_cases hk : k < n
  · refine ⟨.warn, s!"parked only {k} of {n} page-table frames", ?_⟩
    rw [park, run_bind_ok hrun, if_pos hk]
    rfl
  · refine ⟨.debug, s!"parked {k} page-table frames", ?_⟩
    rw [park, run_bind_ok hrun, if_neg hk]
    rfl

/-- Parking frames changes nothing that anybody owns, and not how many can be granted. -/
theorem park_spec (n : Nat) (h : Consistent m) :
    ∃ k m', park n m = .ok k m' ∧ Spares m m' ∧ m'.supply = m.supply := by
  obtain ⟨k, m₁, hrun, hspares, hsupply⟩ := parkUpTo_induct
    (P := fun x => Spares m x ∧ x.supply = m.supply)
    (fun x hx => ⟨hx.1.consistent.plan, hx.1.consistent.bitmapInside⟩)
    (fun x x₁ i hx hroom hclaim => by
      obtain ⟨hspares, hsupply⟩ := hclaim.spares_shelved hx.1.consistent hroom
      exact ⟨hx.1.trans hspares, hsupply.trans hx.2⟩)
    (min n parkLimit) ⟨Spares.refl h, rfl⟩
  obtain ⟨l, text, hpark⟩ := run_park hrun
  exact ⟨k, _, hpark, hspares.trans ((keeps_noted ..).spares hspares.consistent), hsupply⟩

/-! ## Giving back -/

/-- What giving back the frame at `p` does: it is nobody's, and all else stays. -/
structure Releases (m m' : Memory) (p : PhysAddr) : Prop where
  consistent : Consistent m'
  frames : m'.frames = m.frames.gotBack p
  plan : Frames.SamePlan m.frames m'.frames
  bank : Ram.SameBank m.board.ram m'.board.ram
  owned : ∀ q, m'.Owned q ↔ m.Owned q ∧ q ≠ p
  cells : ∀ n, m.board.ram.base.num ≤ n → ¬ m.InBitmap n → m'.cell n = m.cell n

/-- What the store takes back: the first byte of a page of the range that is neither reserved nor
parked, and used. -/
structure Accepted (m : Memory) (p : PhysAddr) : Prop where
  aligned : p.num % 4096 = 0
  low : m.frames.region.start.num ≤ p.num
  high : p.num < m.frames.region.stop.num
  reserved : m.frames.reserved ≤ m.frames.indexOf p
  marked : m.marked (m.frames.indexOf p) = true
  not_parked : p ∉ m.frames.pool

/-- Everything else is refused. -/
theorem refusal_eq_none_iff_accepted (hready : m.frames.ready = true) :
    m.refusal p = none ↔ Accepted m p := by
  constructor
  · intro hnone
    rw [refusal] at hnone
    simp only [hready, Bool.not_true, Bool.false_eq_true, if_false] at hnone
    split_ifs at hnone with haligned hinside hreserved hmarked
    simp only [Bool.not_eq_true', Bool.not_eq_false, PhysAddr.aligned_iff, PhysRange.contains_iff,
      Bool.or_eq_true, decide_eq_true_eq, not_or, List.contains_iff_mem]
      at haligned hinside hreserved hmarked
    exact ⟨haligned, hinside.1, hinside.2, Nat.not_lt.1 hreserved.1, hmarked, hreserved.2⟩
  · intro hp
    have hcontains : m.frames.region.contains p = true :=
      (m.frames.region.contains_iff p).2 ⟨hp.low, hp.high⟩
    have hpark : m.frames.pool.contains p = false := by
      simpa using hp.not_parked
    rw [Memory.refusal]
    simp only [hready, (p.aligned_iff).2 hp.aligned, hcontains, hpark, hp.marked,
      Nat.not_lt.2 hp.reserved, Bool.not_true, Bool.false_eq_true, decide_false, Bool.or_self,
      if_false]

theorem Owned.accepted (hf : m.frames.Planned) (hp : m.Owned p) : Accepted m p := by
  have h1 := hp.managed.low
  have h2 := hp.managed.high
  have h3 := hf.total_eq
  exact ⟨hp.managed.aligned, by omega, by omega, (hp.managed.index hf).1, hp.marked,
    hp.not_parked⟩

/-- What is taken back has an owner, or it is the page in which the range ends. -/
theorem Accepted.owned_or_last (hf : m.frames.Planned) (hp : Accepted m p) :
    m.Owned p ∨ m.frames.region.start.num + 4096 * m.frames.total ≤ p.num := by
  have haligned := hp.aligned
  have hlow := hp.low
  have hreserved := hp.reserved
  have hindex := m.frames.indexOf_eq hlow
  have hstart := hf.aligned
  by_cases hlast : m.frames.region.start.num + 4096 * m.frames.total ≤ p.num
  · exact Or.inr hlast
  · exact Or.inl ⟨⟨haligned, by omega, by omega⟩, hp.marked, hp.not_parked⟩

theorem Owned.refusal (h : Consistent m) (hp : m.Owned p) : m.refusal p = none :=
  (refusal_eq_none_iff_accepted h.plan.ready).2 (hp.accepted h.plan)

theorem card_unmarked_of_cleared (hmarked : ∀ j, m'.marked j = if j = i then false else m.marked j)
    (htotal : m'.frames.total = m.frames.total) (hi : i < m.frames.total)
    (hset : m.marked i = true) : m'.unmarked.card = m.unmarked.card + 1 := by
  have hinsert : m'.unmarked = insert i m.unmarked := by
    ext j
    rw [mem_unmarked, Finset.mem_insert, mem_unmarked, hmarked, htotal]
    by_cases hj : j = i
    · simp [hj, hi]
    · simp [hj]
  have hnew : i ∉ m.unmarked := by
    rw [mem_unmarked, hset]
    simp
  rw [hinsert, Finset.card_insert_of_notMem hnew]

/-- What taking back the frame at `p` does: its mark is cleared, if it has one, and that is
counted. -/
structure TakesBack (m m' : Memory) (p : PhysAddr) : Prop where
  frames : m'.frames = m.frames.gotBack p
  bank : Ram.SameBank m.board.ram m'.board.ram
  cells : ∀ n, m.board.ram.base.num ≤ n → ¬ m.InBitmap n → m'.cell n = m.cell n
  marked : ∀ j, m'.marked j =
    if j = m.frames.indexOf p ∧ m.frames.indexOf p / 8 < m.frames.bitmapSize then false
    else m.marked j

theorem run_release (hin : BitmapInside m) (hready : m.frames.ready = true) (hp : Accepted m p) :
    ∃ m', release p m = .ok (.ok ()) m' ∧ TakesBack m m' p := by
  obtain ⟨m₁, hmark, hm₁⟩ := mark_spec hin (m.frames.indexOf p) false
  refine ⟨{ m₁ with frames := m₁.frames.gotBack p }, ?_, ?_, hm₁.bank, hm₁.cells, hm₁.marked⟩
  · rw [release, run_bind_ok (run_get m), (refusal_eq_none_iff_accepted hready).2 hp]
    dsimp only
    rw [run_bind_ok (run_get m), run_bind_ok hmark]
    rfl
  · rw [hm₁.frames]

theorem TakesBack.plan (t : TakesBack m m' p) : Frames.SamePlan m.frames m'.frames := by
  rw [t.frames]
  exact ⟨rfl, rfl, rfl, rfl, rfl, rfl, rfl⟩

theorem TakesBack.pool (t : TakesBack m m' p) : m'.frames.pool = m.frames.pool := by
  rw [t.frames]
  rfl

/-- Pages have different indices, so the marks of other frames stay. -/
theorem TakesBack.marked_of_ne (t : TakesBack m m' p) (hp : Accepted m p)
    (hq : m.frames.Manages q) (hne : q ≠ p) :
    m'.marked (m.frames.indexOf q) = m.marked (m.frames.indexOf q) := by
  refine (t.marked _).trans (if_neg fun hsame => hne (PhysAddr.num_inj ?_))
  have h1 := hq.aligned
  have h2 := hq.low
  have h3 := hp.aligned
  have h4 := hp.low
  have hindexq := m.frames.indexOf_eq (p := q) (by omega)
  have hindex := m.frames.indexOf_eq h4
  have hindices := hsame.1
  omega

/-- The frame is nobody's any more, and every other one keeps its owner. -/
theorem TakesBack.owned (hf : m.frames.Planned) (hp : Accepted m p) (t : TakesBack m m' p) :
    m'.Owned q ↔ m.Owned q ∧ q ≠ p := by
  constructor
  · rintro ⟨hman, hmark, hpark⟩
    have hq := t.plan.manages.1 hman
    rw [t.plan.indexOf] at hmark
    rw [t.pool] at hpark
    have hne : q ≠ p := by
      rintro rfl
      have hsize := hf.bitmapSize_eq
      obtain ⟨-, hlt, -⟩ := hq.index hf
      rw [t.marked, if_pos ⟨rfl, by omega⟩] at hmark
      cases hmark
    exact ⟨⟨hq, (t.marked_of_ne hp hq hne).symm.trans hmark, hpark⟩, hne⟩
  · rintro ⟨hq, hne⟩
    refine ⟨t.plan.manages.2 hq.managed, ?_, by rw [t.pool]; exact hq.not_parked⟩
    rw [t.plan.indexOf, t.marked_of_ne hp hq.managed hne]
    exact hq.marked

/-- A frame that its owner gives back is never refused. -/
theorem release_spec (h : Consistent m) (hp : m.Owned p) :
    ∃ m', release p m = .ok (.ok ()) m' ∧ Releases m m' p := by
  have haccepted := hp.accepted h.plan
  obtain ⟨m', hrun, ht⟩ := run_release h.bitmapInside h.plan.ready haccepted
  obtain ⟨hlow, hhigh, -⟩ := hp.managed.index h.plan
  have hsize := h.plan.bitmapSize_eq
  have hmarked : ∀ j, m'.marked j = if j = m.frames.indexOf p then false else m.marked j := by
    intro j
    have hj := ht.marked j
    simp only [show m.frames.indexOf p / 8 < m.frames.bitmapSize by omega, and_true] at hj
    exact hj
  refine ⟨m', hrun, ?_, ht.frames, ht.plan, ht.bank, fun q => ht.owned h.plan haccepted, ht.cells⟩
  refine h.step ht.plan ht.bank ?_ ?_ ?_ ?_ ?_ ?_
  · intro j hj hset
    rw [hmarked, if_neg (by omega)]
    exact hset
  · rw [card_unmarked_of_cleared hmarked ht.plan.total hhigh hp.marked, ← h.free_eq, ht.frames]
    rfl
  · rw [ht.frames]
    exact h.parked_le
  · rw [ht.frames]
    exact h.drawn_le
  · rw [ht.pool]
    exact h.pool_nodup
  · intro q hq
    rw [ht.pool] at hq
    have hman := h.pool_managed q hq
    have hne : q ≠ p := fun he => hp.not_parked (he ▸ hq)
    exact ⟨hman, (ht.marked_of_ne haccepted hman hne).trans (h.pool_marked q hq)⟩

end Memory

end HighHalf
