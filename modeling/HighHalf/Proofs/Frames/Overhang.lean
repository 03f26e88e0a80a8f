import HighHalf.Proofs.Frames.Contract
import HighHalf.Proofs.Frames.Custody

/-!
# Runs over a range that ends inside a page

The managed range may end inside a page. That page is none of its frames and is never handed out,
but it lies in the range and counts as used, so the store takes it back from whoever offers it.
With a bit of its own in the bitmap it is taken back once, without one any number of times, and
each time one frame more is counted as free than there are. Apart from this page the store takes
back exactly the frames that were handed out and have not come back since.

## Main definitions

* `Custody.Ragged`: the states of all runs, wherever the range ends
* `Custody.Guarded`: what the store takes back
-/

namespace HighHalf

open Memory

namespace Frames

variable {f : Frames} {p q : PhysAddr}

/-- However many have been drawn, at most the last frame is new among those that wait. -/
theorem mem_pool_shelved (hq : q ∈ (f.shelved p).pool) : q ∈ f.pool ∨ q = p := by
  have hpool : (f.shelved p).pool =
      f.pool ++ List.drop (f.drawn - f.parked.toList.length) [p] := by
    show (f.parked.push p).toList.drop f.drawn = _
    rw [Array.toList_push, List.drop_append, pool]
  rw [hpool, List.mem_append] at hq
  exact hq.imp_right fun hmem => List.mem_singleton.1 (List.mem_of_mem_drop hmem)

end Frames

namespace Memory

variable {m m' : Memory} {p q : PhysAddr} {i : Nat}

/-! ## Frames for tables -/

/-- A claimed frame that is counted and parked is none that the store would hand out. -/
theorem Claims.usable_shelved {m₁ : Memory} (h : Usable m) (c : Claims m m₁ i) :
    Usable { m₁ with frames := m₁.frames.shelved (m.frames.addrOf i) } := by
  have h₁ := c.usable h
  have hman := Frames.manages_addrOf h.plan (c.reserved_le h) c.below
  have hindex := Frames.indexOf_addrOf h.plan (Nat.le_of_lt c.below)
  refine h₁.of_plan ⟨rfl, rfl, rfl, rfl, rfl, rfl, rfl⟩ (Ram.SameBank.refl _) (fun _ _ hj => hj)
    h₁.free_le fun q hq => ?_
  rcases Frames.mem_pool_shelved hq with hq | rfl
  · exact ⟨h₁.pool_managed q hq, h₁.pool_marked q hq⟩
  · refine ⟨c.plan.manages.2 hman, ?_⟩
    show m₁.marked (m₁.frames.indexOf _) = true
    rw [c.plan.indexOf, hindex, c.marked, if_pos rfl]

/-- The next parked frame is handed out zeroed, and all that is known of the others stays. -/
structure Issues (m m' : Memory) (p : PhysAddr) : Prop where
  usable : Usable m'
  pool : m.frames.pool = p :: m'.frames.pool
  frames : m'.frames = { m.frames with drawn := m.frames.drawn + 1 }
  drawn_lt : m.frames.drawn < m.frames.parked.size
  marked : ∀ j, m'.marked j = m.marked j
  bank : Ram.SameBank m.board.ram m'.board.ram
  zeroed : Zeroed m' p
  cells : Confined m m' p

/-- The next parked frame is drawn, and where none is parked a frame is taken. -/
theorem Usable.issues (h : Usable m) : allocateTable m = Memory.allocate m ∨
    ∃ p m', allocateTable m = .ok (some p) m' ∧ Issues m m' p := by
  cases hp : m.frames.parked[m.frames.drawn]? with
  | none => exact Or.inl (run_allocateTable_empty hp)
  | some p =>
    obtain ⟨m₁, hm₁⟩ : ∃ m₁ : Memory, m₁ = { m with frames := { m.frames with
      drawn := m.frames.drawn + 1 } } := ⟨_, rfl⟩
    have hrepools : Repools m m₁ := by
      rw [hm₁]
      exact ⟨rfl, ⟨rfl, rfl, rfl, rfl, rfl, rfl, rfl⟩, rfl⟩
    have hpool : m.frames.pool = p :: m₁.frames.pool := by
      rw [hm₁]
      exact Frames.pool_eq_cons hp
    have h₁ : Usable m₁ := by
      refine hrepools.usable h fun q hq => ?_
      have hmem : q ∈ m.frames.pool := by
        rw [hpool]
        exact List.mem_cons_of_mem p hq
      exact ⟨h.pool_managed q hmem, h.pool_marked q hmem⟩
    have hman : m₁.frames.Manages p := by
      refine hrepools.plan.manages.2 (h.pool_managed p ?_)
      rw [hpool]
      exact List.mem_cons_self
    obtain ⟨z, hzero, ht, hcells⟩ := touches_zero h₁ hman
    rw [hm₁] at hzero
    refine Or.inr ⟨p, z, run_allocateTable_next hp hzero, ?_⟩
    constructor
    case usable => exact ht.usable h₁ hman
    case pool =>
      rw [ht.frames]
      exact hpool
    case frames => rw [ht.frames, hm₁]
    case drawn_lt => exact (Array.getElem?_eq_some_iff.1 hp).1
    case marked =>
      intro j
      rw [ht.marked h₁ hman, hrepools.marked]
    case bank => exact hrepools.bank.trans ht.bank
    case zeroed => exact hcells
    case cells =>
      intro n hn _ hout
      rw [ht.cells n (by rw [hrepools.ram]; exact hn) hout, hrepools.cell]

end Memory

namespace Custody

variable {image : PhysRange} {s : Custody} {op : Op} {o : Outcome} {os : List Outcome}
  {m m' m₁ : Memory} {p q : PhysAddr} {i : Nat}

/-! ## What is counted -/

/-- As free are counted the free frames and one more for each time that the page behind the last
frame came back. It comes back only where the range reaches it, and only once where it has a bit of
its own. -/
structure Tallied (m : Memory) (os : List Outcome) : Prop where
  overhang : m.marked m.frames.total = true ↔
    m.frames.total % 8 = 0 ∨ .returned m.frames.overhang ∉ os
  free : m.frames.free = m.unmarked.card + os.count (.returned m.frames.overhang)
  inside : .returned m.frames.overhang ∈ os →
    m.frames.overhang.num < m.frames.region.stop.num
  once : m.frames.total % 8 ≠ 0 → os.count (.returned m.frames.overhang) ≤ 1

theorem Tallied.cons (t : Tallied m os) (ho : o ≠ .returned m.frames.overhang) :
    Tallied m (o :: os) where
  overhang := by
    rw [t.overhang, List.mem_cons, not_or]
    simp only [ho.symm, not_false_eq_true, true_and]
  free := by rw [t.free, List.count_cons_of_ne ho]
  inside := fun h => t.inside ((List.mem_cons.1 h).resolve_left ho.symm)
  once := by
    rw [List.count_cons_of_ne ho]
    exact t.once

/-- What a step over the same frames has to show while the history stays. -/
theorem Tallied.congr (t : Tallied m os) (hplan : Frames.SamePlan m.frames m'.frames)
    (hmarked : m'.marked m.frames.total = m.marked m.frames.total)
    (hfree : m'.frames.free = m'.unmarked.card + os.count (.returned m.frames.overhang)) :
    Tallied m' os where
  overhang := by rw [hplan.total, hmarked, hplan.overhang, t.overhang]
  free := by rw [hplan.overhang, hfree]
  inside := by
    rw [hplan.overhang, hplan.region]
    exact t.inside
  once := by
    rw [hplan.overhang, hplan.total]
    exact t.once

theorem Tallied.still (t : Tallied m os) (hplan : Frames.SamePlan m.frames m'.frames)
    (hfree : m'.frames.free = m.frames.free) (hmarked : ∀ j, m'.marked j = m.marked j) :
    Tallied m' os := by
  refine t.congr hplan (hmarked _) ?_
  rw [hfree, t.free]
  simp only [unmarked, hmarked, hplan.total]

/-- A free frame is used. -/
theorem Tallied.use (t : Tallied m os) (hf : m.frames.Planned) (hman : m.frames.Manages p)
    (hclear : m.marked (m.frames.indexOf p) = false)
    (hplan : Frames.SamePlan m.frames m'.frames) (hfree : m'.frames.free = m.frames.free - 1)
    (hmarked : ∀ j, m'.marked j = if j = m.frames.indexOf p then true else m.marked j) :
    Tallied m' os := by
  obtain ⟨-, hlt, -⟩ := hman.index hf
  have hcard := card_unmarked_of_set hmarked hplan.total hlt hclear
  have hcount := t.free
  refine t.congr hplan ?_ ?_
  · rw [hmarked, if_neg (by omega)]
  · omega

/-- A frame with an owner comes back. -/
theorem Tallied.back (t : Tallied m os) (hu : Usable m) (hp : m.Owned p) (h : TakesBack m m' p) :
    Tallied m' (.returned p :: os) := by
  obtain ⟨-, hlt, -⟩ := hp.managed.index hu.plan
  have hsize := hu.plan.bitmapSize_eq
  have hmarked : ∀ j, m'.marked j = if j = m.frames.indexOf p then false else m.marked j := by
    intro j
    have hj := h.marked j
    simp only [show m.frames.indexOf p / 8 < m.frames.bitmapSize by omega, and_true] at hj
    exact hj
  have hcard := card_unmarked_of_cleared hmarked h.plan.total hlt hp.marked
  have hfree : m'.frames.free = m.frames.free + 1 := by
    rw [h.frames]
    rfl
  have hcount := t.free
  refine (t.congr h.plan ?_ ?_).cons ?_
  · rw [hmarked, if_neg (by omega)]
  · omega
  · rw [h.plan.overhang]
    simpa using hp.managed.ne_overhang hu.plan

/-- The page behind the last frame comes back: its bit is cleared, if it has one, and no frame is
free that was not. -/
theorem Tallied.over (t : Tallied m os) (hu : Usable m)
    (hinside : m.frames.overhang.num < m.frames.region.stop.num)
    (hmark : m.marked m.frames.total = true) (h : TakesBack m m' m.frames.overhang) :
    Tallied m' (.returned m.frames.overhang :: os) := by
  have hindex := Frames.indexOf_overhang hu.plan
  have hsize := hu.plan.bitmapSize_eq
  have hcount := t.free
  have hunmarked : m'.unmarked = m.unmarked := by
    ext j
    rw [mem_unmarked, mem_unmarked, h.marked, h.plan.total, hindex]
    refine and_congr_right fun hj => ?_
    rw [if_neg (by omega)]
  constructor
  case overhang =>
    rw [h.marked, hindex, h.plan.total, h.plan.overhang]
    by_cases hlast : m.frames.total % 8 = 0
    · rw [if_neg (by omega), t.overhang]
      simp [hlast]
    · rw [if_pos (by omega)]
      simp [hlast]
  case free =>
    rw [h.plan.overhang, List.count_cons_self, hunmarked, h.frames]
    show m.frames.free + 1 = _
    omega
  case inside =>
    rw [h.plan.overhang, h.plan.region]
    exact fun _ => hinside
  case once =>
    rw [h.plan.overhang, h.plan.total, List.count_cons_self]
    intro hlast
    rw [List.count_eq_zero.2 ((t.overhang.1 hmark).resolve_left hlast)]

/-! ## What every operation keeps -/

/-- The store knows the frames that are out. -/
structure Vouched (m : Memory) (os : List Outcome) : Prop where
  usable : Usable m
  drawn_le : m.frames.drawn ≤ m.frames.parked.size
  pool_nodup : m.frames.pool.Nodup
  owned : ∀ p, m.Owned p ↔ p ∈ Outcome.held os
  tallied : Tallied m os

/-- Nothing was handed out or taken back. -/
theorem Vouched.pass (v : Vouched m os) (hgrant : ∀ p, o ≠ .granted p)
    (hreturn : ∀ p, o ≠ .returned p) : Vouched m (o :: os) := by
  refine ⟨v.usable, v.drawn_le, v.pool_nodup, fun p => ?_, v.tallied.cons (hreturn _)⟩
  rw [Outcome.mem_held_cons, ← v.owned]
  simp only [hgrant, ne_eq, hreturn, not_false_eq_true, true_and, false_or]

theorem Vouched.keeps (v : Vouched m os) (k : Keeps m m') : Vouched m' os := by
  refine ⟨k.usable v.usable, ?_, ?_, fun p => k.owned_iff.trans (v.owned p),
    v.tallied.still k.plan k.free k.marked⟩
  · rw [k.drawn, k.parked]
    exact v.drawn_le
  · rw [k.pool]
    exact v.pool_nodup

theorem Vouched.touches (v : Vouched m os) (hp : m.frames.Manages p) (t : Touches m m' p) :
    Vouched m' os := by
  have hmarked := t.marked v.usable hp
  refine ⟨t.usable v.usable hp, ?_, ?_, fun q => (t.owned_iff v.usable hp).trans (v.owned q),
    v.tallied.still t.plan (by rw [t.frames]) hmarked⟩
  · rw [t.frames]
    exact v.drawn_le
  · rw [t.frames]
    exact v.pool_nodup

theorem Vouched.hand (v : Vouched m os) (h : Hands m m' p) (hu : Usable m') :
    Vouched m' (.granted p :: os) := by
  have hplan : Frames.SamePlan m.frames m'.frames := by
    rw [h.frames]
    exact ⟨rfl, rfl, rfl, rfl, rfl, rfl, rfl⟩
  have hfree : m'.frames.free = m.frames.free - 1 := by
    rw [h.frames]
    rfl
  refine ⟨hu, ?_, ?_, fun q => ?_, Tallied.cons ?_ (by simp)⟩
  · rw [h.frames]
    exact v.drawn_le
  · rw [h.frames]
    exact v.pool_nodup
  · rw [h.owned, v.owned, Outcome.held, List.mem_cons]
  · exact v.tallied.use v.usable.plan h.managed h.unmarked hplan hfree h.marked

theorem Vouched.issue (v : Vouched m os) (h : Issues m m' p) : Vouched m' (.granted p :: os) := by
  have hplan : Frames.SamePlan m.frames m'.frames := by
    rw [h.frames]
    exact ⟨rfl, rfl, rfl, rfl, rfl, rfl, rfl⟩
  have hmem : p ∈ m.frames.pool := by
    rw [h.pool]
    exact List.mem_cons_self
  have hnodup := v.pool_nodup
  rw [h.pool, List.nodup_cons] at hnodup
  refine ⟨h.usable, ?_, hnodup.2, fun q => ?_, Tallied.cons ?_ (by simp)⟩
  · rw [h.frames]
    exact h.drawn_lt
  · rw [owned_of_drawn hplan h.pool hnodup.1 (v.usable.pool_managed p hmem)
      (v.usable.pool_marked p hmem) h.marked, v.owned, Outcome.held, List.mem_cons]
  · exact v.tallied.still hplan (by rw [h.frames]) h.marked

/-- A claimed frame that is counted and parked has no owner, as before. -/
theorem Vouched.shelve (v : Vouched m os) (c : Claims m m₁ i) :
    Vouched { m₁ with frames := m₁.frames.shelved (m.frames.addrOf i) } os := by
  have hu := v.usable
  have hman := Frames.manages_addrOf hu.plan (c.reserved_le hu) c.below
  have hindex := Frames.indexOf_addrOf hu.plan (Nat.le_of_lt c.below)
  have hclear : m.marked (m.frames.indexOf (m.frames.addrOf i)) = false := by
    rw [hindex]
    exact c.unmarked
  obtain ⟨m', hm'⟩ : ∃ m' : Memory,
    m' = { m₁ with frames := m₁.frames.shelved (m.frames.addrOf i) } := ⟨_, rfl⟩
  have hframes : m'.frames =
      Frames.shelved { m.frames with free := m.frames.free - 1 } (m.frames.addrOf i) := by
    rw [hm', c.frames]
  have hplan : Frames.SamePlan m.frames m'.frames := by
    rw [hframes]
    exact ⟨rfl, rfl, rfl, rfl, rfl, rfl, rfl⟩
  have hmarked : ∀ j, m'.marked j =
      if j = m.frames.indexOf (m.frames.addrOf i) then true else m.marked j := by
    intro j
    rw [hindex, ← c.marked, hm']
    rfl
  have hpool : m'.frames.pool = m.frames.pool ++ [m.frames.addrOf i] := by
    rw [hframes]
    exact Frames.pool_shelved (f := { m.frames with free := m.frames.free - 1 }) v.drawn_le _
  have hpark : m.frames.addrOf i ∉ m.frames.pool := by
    intro hp
    rw [hu.pool_marked _ hp] at hclear
    cases hclear
  have htallied : Tallied m' os := v.tallied.use hu.plan hman hclear hplan
    (by rw [hframes]; rfl) hmarked
  rw [← hm']
  refine ⟨by rw [hm']; exact c.usable_shelved hu, ?_, ?_, fun p => ?_, htallied⟩
  · rw [hframes]
    show m.frames.drawn ≤ (m.frames.parked.push _).size
    rw [Array.size_push]
    exact Nat.le_succ_of_le v.drawn_le
  · rw [hpool, ← List.concat_eq_append]
    exact v.pool_nodup.concat hpark
  · rw [owned_of_shelved hu.plan hplan hpool hman hclear hmarked, v.owned]

theorem Vouched.takeBack (v : Vouched m os) (hp : Accepted m p) (h : TakesBack m m' p) :
    Vouched m' (.returned p :: os) := by
  have hu := v.usable
  refine ⟨h.usable hu hp, ?_, ?_, fun q => ?_, ?_⟩
  · rw [h.frames]
    exact v.drawn_le
  · rw [h.pool]
    exact v.pool_nodup
  · rw [h.owned hu.plan hp, v.owned, Outcome.held, List.mem_filter, decide_eq_true_iff]
  · rcases (accepted_iff hu).1 hp with howned | ⟨rfl, hinside, hmark⟩
    · exact v.tallied.back hu howned h
    · exact v.tallied.over hu hinside hmark h

/-! ## Whole runs -/

/-- The states of all runs from a new store over a range of RAM that begins with a page, set up
around `image`. The range may end inside a page. -/
inductive Ragged (image : PhysRange) : Custody → Prop where
  | start {board : Board} {region : PhysRange} {window : Window} {m : Memory} :
      Blank ⟨board, { region := region, window := window }⟩ →
      Memory.setup image ⟨board, { region := region, window := window }⟩ = .ok (.ok ()) m →
      Ragged image ⟨m, [], []⟩
  | step {s : Custody} {op : Op} : Ragged image s → s.Allows op → Ragged image (s.step op)

/-- The store knows what the history of the run tells. -/
def Known (s : Custody) : Prop := Vouched s.memory s.outcomes

theorem Known.allocate (h : s.Known) : (s.step .allocate).Known := by
  rcases Usable.allocate h.usable with ⟨m, hrun, hlacks, -⟩ | ⟨p, m, hrun, hhands, hu⟩
  · rw [step_eq s .allocate (run_bind_ok hrun)]
    have hkeeps : Keeps s.memory m := by
      refine ⟨hlacks.ram, ?_, ?_, ?_, ?_⟩
      · rw [hlacks.frames]
        exact ⟨rfl, rfl, rfl, rfl, rfl, rfl, rfl⟩
      all_goals rw [hlacks.frames]; rfl
    exact (Vouched.keeps h hkeeps).pass (o := .unmet) (by simp) (by simp)
  · rw [step_eq s .allocate (run_bind_ok hrun)]
    exact Vouched.hand h hhands hu

theorem Known.allocateTable (h : s.Known) : (s.step .allocateTable).Known := by
  rcases Usable.issues h.usable with hrun | ⟨p, m, hrun, hissues⟩
  · rw [step_allocateTable hrun]
    exact h.allocate
  · rw [step_eq s .allocateTable (run_bind_ok hrun)]
    exact Vouched.issue h hissues

theorem Known.park (h : s.Known) (n : Nat) : (s.step (.park n)).Known := by
  obtain ⟨k, m, hrun, hm⟩ := parkUpTo_induct
    (fun m (v : Vouched m s.outcomes) => ⟨v.usable.plan, v.usable.bitmapInside⟩)
    (fun m m₁ i v _ c => v.shelve c) (min n parkLimit) h
  obtain ⟨l, text, hpark⟩ := run_park hrun
  rw [step_eq s (.park n) (run_bind_ok hpark)]
  exact (hm.keeps (keeps_noted ..)).pass (o := .parked k) (by simp) (by simp)

theorem Known.release (h : s.Known) (p : PhysAddr) : (s.step (.release p)).Known := by
  cases hrefusal : s.memory.refusal p with
  | none =>
    have hp := (refusal_eq_none_iff_accepted h.usable.plan.ready).1 hrefusal
    obtain ⟨m, hrun, htakes⟩ := run_release h.usable.bitmapInside h.usable.plan.ready hp
    rw [step_eq s (.release p) (run_bind_ok hrun)]
    exact Vouched.takeBack h hp htakes
  | some e =>
    rw [step_eq s (.release p) (run_bind_ok (run_release_refused hrefusal))]
    exact (Vouched.keeps h (keeps_noted ..)).pass (o := .refused e) (by simp) (by simp)

theorem Known.write (h : s.Known) (hp : p ∈ s.held) (hi : i < 4096) (v : UInt8) :
    (s.step (.write p i v)).Known := by
  have hman := ((h.owned p).2 hp).managed
  rw [step_eq s (.write p i v) (m := s.memory.stored _) rfl]
  exact (Vouched.touches h hman (touches_write h.usable hman hi v)).pass (o := .written) (by simp)
    (by simp)

theorem Known.step (h : s.Known) (hop : s.Allows op) : (s.step op).Known := by
  cases op with
  | allocate => exact h.allocate
  | allocateTable => exact h.allocateTable
  | park n => exact h.park n
  | release p => exact h.release p
  | write p i v => exact h.write hop.1 hop.2 v

/-- After setting up nothing is out, and the page behind the last frame counts as used. -/
theorem Known.start {board : Board} {region : PhysRange} {window : Window}
    (h : Blank ⟨board, { region := region, window := window }⟩)
    (hok : Memory.setup image ⟨board, { region := region, window := window }⟩ = .ok (.ok ()) m) :
    Known ⟨m, [], []⟩ := by
  have hset := setup_spec h hok
  have hc := hset.consistent
  refine ⟨hc.usable, hc.drawn_le, hc.pool_nodup, fun p => ?_, ?_, hc.free_eq,
    fun hmem => absurd hmem List.not_mem_nil, fun _ => Nat.zero_le 1⟩
  · exact ⟨fun hp => absurd hp (hset.not_owned p), fun hp => absurd hp List.not_mem_nil⟩
  · exact ⟨fun _ => Or.inr List.not_mem_nil, fun _ => hc.marked_past _ (Nat.le_refl _)⟩

theorem Ragged.known (h : Ragged image s) : s.Known := by
  induction h with
  | start hblank hok => exact Known.start hblank hok
  | step _ hop ih => exact ih.step hop

/-! ## What is taken back -/

/-- The page at `p` is the one in which the range ends, and it either has no bit in the bitmap or
has not come back yet. -/
structure Overhangs (s : Custody) (p : PhysAddr) : Prop where
  behind : p = s.memory.frames.overhang
  inside : p.num < s.memory.frames.region.stop.num
  used : s.memory.frames.total % 8 = 0 ∨ .returned p ∉ s.outcomes

/-- What the store takes back. -/
structure Guarded (s : Custody) : Prop where
  /-- Taken back are the frames that were handed out and did not come back since, and the page in
  which the range ends. -/
  accepted : ∀ p, (∃ m, Memory.release p s.memory = .ok (.ok ()) m) ↔
    Outcome.Handed p s.outcomes ∨ s.Overhangs p
  /-- The rest is refused, and that changes neither the store nor RAM. -/
  refused : ∀ p, ¬ (Outcome.Handed p s.outcomes ∨ s.Overhangs p) →
    ∃ e m, Memory.release p s.memory = .ok (.error e) m ∧ m.frames = s.memory.frames ∧
      m.board.ram = s.memory.board.ram
  /-- What came back is refused from then on, but for that page if it has no bit of its own. -/
  again : ∀ p m, Memory.release p s.memory = .ok (.ok ()) m →
    ((∃ m', Memory.release p m = .ok (.ok ()) m') ↔
      p = s.memory.frames.overhang ∧ s.memory.frames.total % 8 = 0)
  /-- More frames are counted as free than there are by as many times as that page came back. -/
  free : s.memory.frames.free + s.memory.frames.reserved ≤
    s.memory.frames.total + s.outcomes.count (.returned s.memory.frames.overhang)
  once : s.memory.frames.total % 8 ≠ 0 →
    s.outcomes.count (.returned s.memory.frames.overhang) ≤ 1
  /-- A range of whole pages ends in none of its own. -/
  whole : s.memory.frames.region.stop.num % 4096 = 0 →
    (∀ p, ¬ s.Overhangs p) ∧ s.outcomes.count (.returned s.memory.frames.overhang) = 0

theorem Known.accepted_iff (h : s.Known) :
    Accepted s.memory p ↔ Outcome.Handed p s.outcomes ∨ s.Overhangs p := by
  rw [Memory.accepted_iff h.usable, h.owned, Outcome.mem_held_iff, h.tallied.overhang]
  refine or_congr_right ⟨?_, ?_⟩
  · rintro ⟨rfl, hinside, hused⟩
    exact ⟨rfl, hinside, hused⟩
  · rintro ⟨rfl, hinside, hused⟩
    exact ⟨rfl, hinside, hused⟩

theorem Known.release_ok_iff (h : s.Known) :
    (∃ m, Memory.release p s.memory = .ok (.ok ()) m) ↔
      Outcome.Handed p s.outcomes ∨ s.Overhangs p := by
  rw [← h.accepted_iff]
  constructor
  · rintro ⟨m, hrun⟩
    rcases refusal_of_release hrun with ⟨-, hnone⟩ | ⟨e, he, -⟩
    · exact (refusal_eq_none_iff_accepted h.usable.plan.ready).1 hnone
    · cases he
  · intro hp
    obtain ⟨m, hrun, -⟩ := run_release h.usable.bitmapInside h.usable.plan.ready hp
    exact ⟨m, hrun⟩

theorem Known.again (h : s.Known) (hrun : Memory.release p s.memory = .ok (.ok ()) m) :
    (∃ m', Memory.release p m = .ok (.ok ()) m') ↔
      p = s.memory.frames.overhang ∧ s.memory.frames.total % 8 = 0 := by
  have hnext : (s.step (.release p)).Known := h.release p
  rw [step_eq s (.release p) (run_bind_ok hrun)] at hnext
  have hp := h.accepted_iff.2 (h.release_ok_iff.1 ⟨m, hrun⟩)
  obtain ⟨m₁, hrun₁, htakes⟩ := run_release h.usable.bitmapInside h.usable.plan.ready hp
  cases hrun.symm.trans hrun₁
  refine hnext.release_ok_iff.trans ⟨?_, ?_⟩
  · rintro (hhanded | hover)
    · rw [Outcome.handed_cons] at hhanded
      simp at hhanded
    · have hused := hover.used.resolve_right (by simp)
      have hbehind := hover.behind
      rw [htakes.plan.overhang] at hbehind
      rw [htakes.plan.total] at hused
      exact ⟨hbehind, hused⟩
  · rintro ⟨rfl, hlast⟩
    have hinside := hp.high
    refine Or.inr ⟨htakes.plan.overhang.symm, ?_, Or.inl ?_⟩
    · rw [htakes.plan.region]
      exact hinside
    · rw [htakes.plan.total]
      exact hlast

/-- Wherever the range ends, nothing is taken back but the frames that are out, the page in which
the range ends apart. -/
theorem Ragged.release_guarded (h : Ragged image s) : s.Guarded := by
  have hk := h.known
  have hu := hk.usable
  have hnum := Frames.num_overhang hu.plan
  have hoverhang : s.memory.frames.region.stop.num % 4096 = 0 →
      ¬ s.memory.frames.overhang.num < s.memory.frames.region.stop.num := by
    intro hwhole
    have htotal := hu.plan.total_eq
    have hstart := hu.plan.aligned
    omega
  constructor
  case accepted => exact fun p => hk.release_ok_iff
  case refused =>
    intro p hp
    rw [← hk.accepted_iff, ← refusal_eq_none_iff_accepted hu.plan.ready] at hp
    obtain ⟨e, he⟩ := Option.ne_none_iff_exists'.1 hp
    exact ⟨e, _, run_release_refused he, rfl, rfl⟩
  case again => exact fun p m hrun => hk.again hrun
  case free =>
    have hfree := hk.tallied.free
    have hle := card_unmarked_add_reserved_le hu
    omega
  case once => exact hk.tallied.once
  case whole =>
    intro hwhole
    constructor
    · rintro p ⟨rfl, hinside, -⟩
      exact hoverhang hwhole hinside
    · exact List.count_eq_zero.2 fun hmem => hoverhang hwhole (hk.tallied.inside hmem)

/-- A store over eight pages and a half. -/
def raggedSample : Memory where
  board := sample.board
  frames := { region := .ofWords 0x40000000 0x40008800, window := .identity }

/-- The image in that store: its first page. -/
def raggedImage : PhysRange := .ofWords 0x40000000 0x40001000

theorem setUp_raggedSample : ∃ m, Memory.setup raggedImage raggedSample = .ok (.ok ()) m ∧
    Blank raggedSample ∧ SetUp raggedSample m raggedImage ∧ m.frames.free = 6 ∧
      m.frames.total = 8 ∧ m.frames.overhang = ⟨0x40008000⟩ := by
  have hblank : Blank raggedSample :=
    ⟨rfl, rfl, rfl, rfl, unset_sample.shows, unset_sample.inside.mono (by decide) (by decide)⟩
  have hfits : Fits raggedSample raggedImage (.ofWords 0x40001000 0x40002000) := by
    refine ⟨by decide, by decide, by decide, ?_, by decide⟩
    decide
  obtain ⟨m, hrun, hset⟩ := setUp_of_fits hblank hfits
  have hregion : m.frames.region.start.num = 0x40000000 ∧
      m.frames.region.stop.num = 0x40008800 := by
    rw [hset.region]
    exact ⟨rfl, rfl⟩
  have htotal := hset.consistent.plan.total_eq
  have hbytes := hset.consistent.plan.bitmapSize_eq
  have hreserved := hset.reserved
  have hfree := hset.free
  rw [← hset.region, hregion.1, show raggedImage.stop.num = 0x40001000 from rfl] at hreserved
  rw [hregion.1, hregion.2] at htotal
  refine ⟨m, hrun, hblank, hset, by omega, by omega, PhysAddr.num_inj ?_⟩
  rw [Frames.num_overhang hset.consistent.plan, hregion.1, htotal]
  rfl

/-- In this store the page in which the range ends is taken back though nobody was given it, and
taken back once more after that. -/
theorem Ragged.release_guarded_sample :
    ∃ m s, Memory.setup raggedImage raggedSample = .ok (.ok ()) m ∧
    s = (Custody.mk m [] []).step (.release ⟨0x40008000⟩) ∧ Ragged raggedImage s ∧ s.Guarded ∧
      s.outcomes = [.returned ⟨0x40008000⟩] ∧ m.frames.free = 6 ∧ s.memory.frames.free = 7 ∧
      ∃ m', Memory.release ⟨0x40008000⟩ s.memory = .ok (.ok ()) m' := by
  obtain ⟨m, hsetup, hblank, hset, hfree, htotal, hoverhang⟩ := setUp_raggedSample
  have hr₀ : Ragged raggedImage ⟨m, [], []⟩ := Ragged.start hblank hsetup
  have hover : Overhangs ⟨m, [], []⟩ ⟨0x40008000⟩ := by
    refine ⟨hoverhang.symm, ?_, Or.inl (by show m.frames.total % 8 = 0; rw [htotal])⟩
    show _ < m.frames.region.stop.num
    rw [hset.region]
    decide
  obtain ⟨m₁, hrun⟩ := (hr₀.known.release_ok_iff (p := ⟨0x40008000⟩)).2 (Or.inr hover)
  have hs : (Custody.mk m [] []).step (.release ⟨0x40008000⟩) =
      ⟨m₁, [.returned ⟨0x40008000⟩], [m]⟩ := step_eq _ (.release _) (run_bind_ok hrun)
  have hr₁ : Ragged raggedImage ⟨m₁, [.returned ⟨0x40008000⟩], [m]⟩ := by
    rw [← hs]
    exact hr₀.step trivial
  refine ⟨m, _, hsetup, hs.symm, hr₁, Ragged.release_guarded hr₁, rfl, hfree, ?_, ?_⟩
  · have hp := hr₀.known.accepted_iff.2 (Or.inr hover)
    have hu := hr₀.known.usable
    obtain ⟨m₂, hrun₂, htakes⟩ := run_release hu.bitmapInside hu.plan.ready hp
    cases hrun.symm.trans hrun₂
    show m₁.frames.free = 7
    rw [htakes.frames]
    show m.frames.free + 1 = 7
    rw [hfree]
  · exact (hr₀.known.again hrun).2 ⟨hoverhang.symm, by show m.frames.total % 8 = 0; rw [htotal]⟩

end Custody

end HighHalf
