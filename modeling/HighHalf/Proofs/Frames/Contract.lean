import HighHalf.Proofs.Frames.Effects

/-!
# What callers of the frame store may rely on

The managed range may end inside a page. That page is never handed out, but it is taken back
whenever somebody gives it back, and then more frames are counted as free than there are. What
callers are promised does not hang on the count: the lowest free frame is handed out as long as
there is one, and nothing is taken back but what somebody was given, that last page apart.

## Main definitions

* `Frames.overhang`: the page behind the last frame
* `Memory.Hands`: a frame is handed out
* `Memory.Serves`: the promise to the callers
-/

namespace HighHalf

namespace Frames

/-- The page behind the last frame. A range that ends inside a page ends in this one. -/
def overhang (f : Frames) : PhysAddr := f.addrOf f.total

variable {f g : Frames} {p : PhysAddr}

theorem SamePlan.overhang (a : SamePlan f g) : g.overhang = f.overhang := by
  rw [Frames.overhang, Frames.overhang, addrOf, addrOf, a.region, a.total]

theorem num_overhang (hf : f.Planned) :
    f.overhang.num = f.region.start.num + 4096 * f.total :=
  num_addrOf hf (Nat.le_refl _)

theorem indexOf_overhang (hf : f.Planned) : f.indexOf f.overhang = f.total :=
  indexOf_addrOf hf (Nat.le_refl _)

theorem Manages.ne_overhang (hf : f.Planned) (hp : f.Manages p) : p ≠ f.overhang := by
  rintro rfl
  have hhigh := hp.high
  rw [num_overhang hf] at hhigh
  omega

end Frames

namespace Memory

variable {m m' : Memory} {p q : PhysAddr} {i : Nat}

/-- Only the page behind the last frame is taken back without an owner, while it lies in the range
and counts as used. -/
theorem accepted_iff (h : Usable m) : Accepted m p ↔ m.Owned p ∨
    p = m.frames.overhang ∧ p.num < m.frames.region.stop.num ∧
      m.marked m.frames.total = true := by
  have hnum := Frames.num_overhang h.plan
  have hindex := Frames.indexOf_overhang h.plan
  constructor
  · intro hp
    refine (hp.owned_or_last h.plan).imp_right fun hlast => ?_
    have haligned := hp.aligned
    have hhigh := hp.high
    have hstart := h.plan.aligned
    have htotal := h.plan.total_eq
    -- It is the only page that begins behind the last frame and before the end of the range.
    have heq : p = m.frames.overhang := PhysAddr.num_inj (by omega)
    refine ⟨heq, hhigh, ?_⟩
    rw [← hindex, ← heq]
    exact hp.marked
  · rintro (hp | ⟨rfl, hhigh, hmark⟩)
    · exact hp.accepted h.plan
    · have hstart := h.plan.aligned
      refine ⟨by omega, by omega, hhigh, ?_, ?_, fun hp => ?_⟩
      · rw [hindex]
        exact h.plan.reserved_le
      · rw [hindex]
        exact hmark
      · exact (h.pool_managed _ hp).ne_overhang h.plan rfl

/-- The frame at `p` was free, and no frame below it was. Now it is used, counted, zeroed and the
caller's; nobody else's changes. -/
structure Hands (m m' : Memory) (p : PhysAddr) : Prop where
  managed : m.frames.Manages p
  unmarked : m.marked (m.frames.indexOf p) = false
  lowest : ∀ q, m.frames.Manages q → q.num < p.num → m.marked (m.frames.indexOf q) = true
  not_owned : ¬ m.Owned p
  not_parked : p ∉ m.frames.pool
  frames : m'.frames = Frames.counted { m.frames with free := m.frames.free - 1 } p
  marked : ∀ j, m'.marked j = if j = m.frames.indexOf p then true else m.marked j
  owned : ∀ q, m'.Owned q ↔ q = p ∨ m.Owned q
  bank : Ram.SameBank m.board.ram m'.board.ram
  zeroed : Zeroed m' p
  cells : Confined m m' p

/-- No frame was free, and that is counted. -/
structure Lacks (m m' : Memory) : Prop where
  marked : ∀ p, m.frames.Manages p → m.marked (m.frames.indexOf p) = true
  frames : m'.frames = m.frames.shortOf
  ram : m'.board.ram = m.board.ram

/-- The promise to the callers: a request for a frame is met as long as one is free; a frame that
somebody owns is taken back; and whatever is refused changes nothing, for the reason that is given.
Nothing else is taken back but the page in which the range ends, which nobody was ever given. It is
taken back while it counts as used, which is for ever where it has no bit in the bitmap. -/
structure Serves (m : Memory) : Prop where
  grants : (∃ m', allocate m = .ok none m' ∧ Lacks m m') ∨
    ∃ p m', allocate m = .ok (some p) m' ∧ Hands m m' p
  refuses : ∀ p e, m.refusal p = some e →
    ∃ text, release p m = .ok (.error e) (m.noted .warn .frames text)
  accepts : ∀ p, m.refusal p = none → ∃ m', release p m = .ok (.ok ()) m' ∧ TakesBack m m' p ∧
    ∀ q, m'.Owned q ↔ m.Owned q ∧ q ≠ p
  guarded : ∀ p, m.refusal p = none ↔ m.Owned p ∨
    p = m.frames.overhang ∧ p.num < m.frames.region.stop.num ∧ m.marked m.frames.total = true

/-! ## Staying usable -/

/-- What a step has to keep so that the store stays usable. -/
theorem Usable.of_plan (h : Usable m) (hplan : Frames.SamePlan m.frames m'.frames)
    (hbank : Ram.SameBank m.board.ram m'.board.ram)
    (hreserved : ∀ i, i < m.frames.reserved → m.marked i = true → m'.marked i = true)
    (hfree : m'.unmarked.card ≤ m'.frames.free)
    (hpool : ∀ p ∈ m'.frames.pool,
      m.frames.Manages p ∧ m'.marked (m.frames.indexOf p) = true) : Usable m' where
  plan := hplan.planned h.plan
  shows := by
    rw [hplan.window]
    exact hbank.shows h.shows
  inside := by
    rw [hplan.region, hplan.total]
    exact hbank.has.2 h.inside
  marked_reserved := by
    intro i hi
    rw [hplan.reserved] at hi
    exact hreserved i hi (h.marked_reserved i hi)
  free_le := hfree
  pool_managed := fun p hp => hplan.manages.2 (hpool p hp).1
  pool_marked := by
    intro p hp
    rw [hplan.indexOf]
    exact (hpool p hp).2

/-- The same for a step that parks and draws nothing. -/
theorem Usable.step (h : Usable m) (hplan : Frames.SamePlan m.frames m'.frames)
    (hbank : Ram.SameBank m.board.ram m'.board.ram) (hpool : m'.frames.pool = m.frames.pool)
    (hreserved : ∀ i, i < m.frames.reserved → m.marked i = true → m'.marked i = true)
    (hfree : m'.unmarked.card ≤ m'.frames.free)
    (hmarked : ∀ p ∈ m.frames.pool, m'.marked (m.frames.indexOf p) = true) : Usable m' := by
  refine h.of_plan hplan hbank hreserved hfree ?_
  rw [hpool]
  exact fun p hp => ⟨h.pool_managed p hp, hmarked p hp⟩

/-- The same for a step that only parks or draws. -/
theorem Repools.usable (r : Repools m m') (h : Usable m)
    (hpool : ∀ p ∈ m'.frames.pool,
      m.frames.Manages p ∧ m.marked (m.frames.indexOf p) = true) : Usable m' := by
  refine h.of_plan r.plan r.bank (fun i _ hi => (r.marked i).trans hi) ?_ fun p hp => ?_
  · rw [r.unmarked, r.free]
    exact h.free_le
  · rw [r.marked]
    exact hpool p hp

theorem Keeps.usable (k : Keeps m m') (h : Usable m) : Usable m' := by
  refine k.repools.usable h ?_
  rw [k.pool]
  exact fun p hp => ⟨h.pool_managed p hp, h.pool_marked p hp⟩

theorem Touches.usable (t : Touches m m' p) (h : Usable m) (hp : m.frames.Manages p) :
    Usable m' := by
  have hmark := t.marked h hp
  refine h.step t.plan t.bank (by rw [t.frames]) (fun i _ hi => (hmark i).trans hi) ?_
    fun q hq => (hmark _).trans (h.pool_marked q hq)
  simp only [unmarked, hmark, t.frames]
  exact h.free_le

theorem Claims.plan (c : Claims m m' i) : Frames.SamePlan m.frames m'.frames := by
  rw [c.frames]
  exact ⟨rfl, rfl, rfl, rfl, rfl, rfl, rfl⟩

theorem Claims.usable (h : Usable m) (c : Claims m m' i) : Usable m' := by
  have hkeep : ∀ j, m.marked j = true → m'.marked j = true := by
    intro j hj
    rw [c.marked, hj, ite_self]
  refine h.step c.plan c.bank (by rw [c.frames]; rfl) (fun j _ => hkeep j) ?_
    fun p hp => hkeep _ (h.pool_marked p hp)
  have hcard := card_unmarked_of_set c.marked c.plan.total c.below c.unmarked
  have hfree := h.free_le
  rw [c.frames]
  show _ ≤ m.frames.free - 1
  omega

theorem TakesBack.usable (h : Usable m) (hp : Accepted m p) (t : TakesBack m m' p) :
    Usable m' := by
  have hreserved := hp.reserved
  refine h.step t.plan t.bank t.pool (fun i hi hset => ?_) ?_ fun q hq => ?_
  · rw [t.marked, if_neg (by omega)]
    exact hset
  · -- One mark at most is cleared, and one frame is counted.
    have hsub : m'.unmarked ⊆ insert (m.frames.indexOf p) m.unmarked := by
      intro j hj
      rw [mem_unmarked, t.marked, t.plan.total] at hj
      rw [Finset.mem_insert, mem_unmarked]
      by_cases hjp : j = m.frames.indexOf p
      · exact Or.inl hjp
      · rw [if_neg fun c => hjp c.1] at hj
        exact Or.inr hj
    have hcard := (Finset.card_le_card hsub).trans (Finset.card_insert_le _ _)
    have hfree := h.free_le
    rw [t.frames]
    show _ ≤ m.frames.free + 1
    omega
  · have hne : q ≠ p := fun he => hp.not_parked (he ▸ hq)
    exact (t.marked_of_ne hp (h.pool_managed q hq) hne).trans (h.pool_marked q hq)

/-! ## Requests -/

/-- A claimed frame that is then zeroed and counted has been handed out. -/
theorem Claims.hands {m₁ z : Memory} (h : Usable m) (c : Claims m m₁ i)
    (t : Touches m₁ z (m.frames.addrOf i))
    (hzero : ∀ n, (m.frames.addrOf i).num ≤ n → n < (m.frames.addrOf i).num + 4096 →
      z.cell n = 0) :
    Hands m { z with frames := z.frames.counted (m.frames.addrOf i) } (m.frames.addrOf i) := by
  have hman := Frames.manages_addrOf h.plan (c.reserved_le h) c.below
  have hindex := Frames.indexOf_addrOf h.plan (Nat.le_of_lt c.below)
  obtain ⟨m', -, hkeeps, hm'⟩ := countAlloc_spec (m.frames.addrOf i) z
  have hmarked : ∀ j, m'.marked j =
      if j = m.frames.indexOf (m.frames.addrOf i) then true else m.marked j := by
    intro j
    rw [hkeeps.marked, t.marked (c.usable h) (c.plan.manages.2 hman), c.marked, hindex]
  have hpark : m.frames.addrOf i ∉ m.frames.pool := by
    intro hp
    have hmark := h.pool_marked _ hp
    rw [hindex, c.unmarked] at hmark
    cases hmark
  have hframes : m'.frames =
      Frames.counted { m.frames with free := m.frames.free - 1 } (m.frames.addrOf i) := by
    rw [hm', t.frames, c.frames]
  rw [← hm']
  constructor
  case managed => exact hman
  case unmarked =>
    rw [hindex]
    exact c.unmarked
  case lowest =>
    intro q hq hlt
    have hlow := hq.low
    have hindexq := m.frames.indexOf_eq (p := q) (by omega)
    have hnum := Frames.num_addrOf h.plan (Nat.le_of_lt c.below)
    exact c.first _ (by omega)
  case not_owned =>
    intro ho
    have hmark := ho.marked
    rw [hindex, c.unmarked] at hmark
    cases hmark
  case not_parked => exact hpark
  case frames => exact hframes
  case marked => exact hmarked
  case owned =>
    refine fun q => owned_of_marked h.plan ?_ (by rw [hframes]; rfl) hman hpark hmarked
    rw [hframes]
    exact ⟨rfl, rfl, rfl, rfl, rfl, rfl, rfl⟩
  case bank =>
    rw [hkeeps.ram]
    exact c.bank.trans t.bank
  case zeroed =>
    intro n hn hn'
    rw [hkeeps.cell]
    exact hzero n hn hn'
  case cells =>
    intro n hn hb hout
    rw [hkeeps.cell, t.cells n (by rw [c.bank.base]; exact hn) hout, c.cells n hn hb]

/-- A usable store hands out a frame or has none, and stays usable. -/
theorem Usable.allocate (h : Usable m) :
    (∃ m', allocate m = .ok none m' ∧ Lacks m m' ∧ Usable m') ∨
      ∃ p m', allocate m = .ok (some p) m' ∧ Hands m m' p ∧ Usable m' := by
  rcases claim_cases h.plan h.bitmapInside with ⟨hrun, hnone⟩ | ⟨i, m₁, hrun, hclaim⟩
  · obtain ⟨text, hrun'⟩ := run_allocate_none hrun
    have hempty : m.unmarked = ∅ := hnone.elim
      (fun hzero => Finset.card_eq_zero.1 (Nat.le_zero.1 (hzero ▸ h.free_le))) id
    refine Or.inl ⟨_, hrun', ⟨fun p hp => ?_, rfl, rfl⟩, Keeps.usable ?_ h⟩
    · obtain ⟨-, hlt, -⟩ := hp.index h.plan
      by_contra hmark
      have hmem := mem_unmarked.2 ⟨hlt, Bool.not_eq_true _ ▸ hmark⟩
      rw [hempty] at hmem
      exact absurd hmem (Finset.notMem_empty _)
    · exact ⟨rfl, ⟨rfl, rfl, rfl, rfl, rfl, rfl, rfl⟩, rfl, rfl, rfl⟩
  · have hman := hclaim.plan.manages.2
      (Frames.manages_addrOf h.plan (hclaim.reserved_le h) hclaim.below)
    have h₁ := hclaim.usable h
    obtain ⟨z, hzero, htouch, hcells⟩ := touches_zero h₁ hman
    obtain ⟨m', -, hkeeps, hm'⟩ := countAlloc_spec (m.frames.addrOf i) z
    refine Or.inr ⟨_, _, run_allocate hrun hzero, hclaim.hands h htouch hcells, ?_⟩
    rw [← hm']
    exact hkeeps.usable (htouch.usable h₁ hman)

/-- A usable store takes back what it does not refuse, and stays usable. -/
theorem Usable.release (h : Usable m) (p : PhysAddr) :
    ∃ r m', release p m = .ok r m' ∧ Usable m' := by
  cases hrefusal : m.refusal p with
  | none =>
    have hp := (refusal_eq_none_iff_accepted h.plan.ready).1 hrefusal
    obtain ⟨m', hrun, ht⟩ := run_release h.bitmapInside h.plan.ready hp
    exact ⟨_, m', hrun, ht.usable h hp⟩
  | some e => exact ⟨_, _, run_release_refused hrefusal, (keeps_noted ..).usable h⟩

/-- A usable store keeps the promise to its callers. -/
theorem Usable.serves (h : Usable m) : Serves m := by
  have hiff : ∀ p, m.refusal p = none ↔ Accepted m p :=
    fun _ => refusal_eq_none_iff_accepted h.plan.ready
  constructor
  case grants =>
    rcases h.allocate with ⟨m', hrun, hlacks, -⟩ | ⟨p, m', hrun, hhands, -⟩
    · exact Or.inl ⟨m', hrun, hlacks⟩
    · exact Or.inr ⟨p, m', hrun, hhands⟩
  case refuses => exact fun p e hrefusal => ⟨_, run_release_refused hrefusal⟩
  case accepts =>
    intro p hp
    rw [hiff] at hp
    obtain ⟨m', hrun, ht⟩ := run_release h.bitmapInside h.plan.ready hp
    exact ⟨m', hrun, ht, fun q => ht.owned h.plan hp⟩
  case guarded => exact fun p => (hiff p).trans (accepted_iff h)

end Memory

end HighHalf
