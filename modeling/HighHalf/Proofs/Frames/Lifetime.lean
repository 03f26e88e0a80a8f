import HighHalf.Proofs.Frames.Contract
import HighHalf.Proofs.Frames.Placement

/-!
# The life of a frame store

A store is made over whole pages of RAM. It may be asked for anything from then on, also before it
is set up and after setting up has failed; the window may be shifted, and outside the bitmap anybody
may write. In every state of such a life the store either has nothing at all or is consistent.

Beside the store stand two lists: the frames that were parked so far, for each request those that
became used by it in ascending order, and the frames that were drawn so far.

## Main definitions

* `Memory.freeFrames`: the free frames from below
* `Memory.Turn`, `Memory.Life`: what can happen to a store, and all states it comes to
* `Memory.Live`: what holds in all of them
* `Memory.Stocks`: what parking frames does
-/

namespace HighHalf

namespace Memory

variable {m m' m'' : Memory} {p q : PhysAddr} {i j k n : Nat} {ps qs ds es : List PhysAddr}

/-! ## The free frames -/

/-- The frames of the range that are not used, in ascending order. -/
def freeFrames (m : Memory) : List PhysAddr := m.frames.region.pages.filter fun p => !m.isUsed p

/-- The frames that were free in `m` and are used in `m'`, in ascending order. -/
def gone (m m' : Memory) : List PhysAddr := m.freeFrames.filter fun p => m'.isUsed p

/-- Before the store is set up no frame is free. -/
theorem isUsed_of_unready (h : m.frames.ready = false) (p : PhysAddr) : m.isUsed p = true := by
  rw [isUsed, h]
  rfl

theorem freeFrames_of_unready (h : m.frames.ready = false) : m.freeFrames = [] := by
  rw [freeFrames, List.filter_eq_nil_iff]
  intro p _
  rw [isUsed_of_unready h]
  exact Bool.false_ne_true

theorem mem_freeFrames : p ∈ m.freeFrames ↔ p ∈ m.frames.region.pages ∧ m.isUsed p = false := by
  rw [freeFrames, List.mem_filter, Bool.not_eq_true']

/-- A consistent store over a range of whole pages. -/
structure Whole (m : Memory) : Prop where
  consistent : Consistent m
  whole : m.frames.region.stop.num % 4096 = 0

theorem Whole.steps (h : Whole m) : m.frames.region.steps = m.frames.total := by
  have hsize : m.frames.region.size.toNat =
      m.frames.region.stop.num - m.frames.region.start.num := m.frames.region.size_toNat
  have htotal := h.consistent.plan.total_eq
  have hstart := h.consistent.plan.aligned
  have hstop := h.whole
  rw [PhysRange.steps, hsize]
  omega

theorem Whole.isUsed_addrOf (h : Whole m) (hi : i < m.frames.total) :
    m.isUsed (m.frames.addrOf i) = m.marked i := by
  have hplan := h.consistent.plan
  have hnum := Frames.num_addrOf hplan (Nat.le_of_lt hi)
  have htotal := hplan.total_eq
  rw [isUsed_eq_marked hplan.ready (by omega) (by omega),
    Frames.indexOf_addrOf hplan (Nat.le_of_lt hi)]

/-- The free frames are those whose number is not marked. -/
theorem Whole.freeFrames_eq (h : Whole m) : m.freeFrames =
    ((List.range m.frames.total).filter fun i => !m.marked i).map m.frames.addrOf := by
  have hstep : m.frames.region.step = m.frames.addrOf := rfl
  rw [freeFrames, PhysRange.pages, h.steps, List.filter_map, hstep]
  refine congrArg (List.map m.frames.addrOf) (List.filter_congr fun i hi => ?_)
  show (!m.isUsed (m.frames.addrOf i)) = !m.marked i
  rw [h.isUsed_addrOf (List.mem_range.1 hi)]

/-- They are counted. -/
theorem Whole.length_freeFrames (h : Whole m) : m.freeFrames.length = m.frames.free := by
  have hfilter : (List.range m.frames.total).filter (fun i => !m.marked i) =
      (List.range m.frames.total).filter fun i => m.marked i = false :=
    List.filter_congr fun i _ => by cases m.marked i <;> rfl
  rw [h.freeFrames_eq, List.length_map, h.consistent.free_eq, hfilter]
  rfl

/-- The list goes up. -/
theorem Whole.pairwise_freeFrames (h : Whole m) :
    m.freeFrames.Pairwise fun p q => p.num < q.num := by
  have hplan := h.consistent.plan
  rw [h.freeFrames_eq, List.pairwise_map]
  refine List.Pairwise.imp_of_mem ?_ (List.pairwise_lt_range.filter _)
  intro i j hi hj hlt
  have hi' := List.mem_range.1 (List.mem_filter.1 hi).1
  have hj' := List.mem_range.1 (List.mem_filter.1 hj).1
  rw [Frames.num_addrOf hplan (Nat.le_of_lt hi'), Frames.num_addrOf hplan (Nat.le_of_lt hj')]
  omega

theorem filter_range_of_first {P Q : Nat → Bool} (hi : i < n) (hP : P i = true)
    (hfirst : ∀ j < i, P j = false) (hQ : ∀ j, Q j = if j = i then false else P j) :
    (List.range n).filter P = i :: (List.range n).filter Q := by
  have hsplit : List.range n = List.range i ++ i :: List.range' (i + 1) (n - (i + 1)) := by
    have hrest := List.range'_append_1 (s := 0) (m := i) (n := n - i)
    rw [Nat.zero_add, show n - i = n - (i + 1) + 1 by omega, List.range'_succ,
      show i + (n - (i + 1) + 1) = n by omega] at hrest
    rw [List.range_eq_range', List.range_eq_range', hrest]
  have hlow : (List.range i).filter P = [] := by
    rw [List.filter_eq_nil_iff]
    intro j hj
    rw [hfirst j (List.mem_range.1 hj)]
    exact Bool.false_ne_true
  have hlow' : (List.range i).filter Q = [] := by
    rw [List.filter_eq_nil_iff]
    intro j hj
    rw [hQ, hfirst j (List.mem_range.1 hj), ite_self]
    exact Bool.false_ne_true
  have hhigh : (List.range' (i + 1) (n - (i + 1))).filter Q =
      (List.range' (i + 1) (n - (i + 1))).filter P := by
    refine List.filter_congr fun j hj => ?_
    have hlt := (List.mem_range'_1.1 hj).1
    rw [hQ, if_neg (by omega)]
  rw [hsplit, List.filter_append, List.filter_append, List.filter_cons_of_pos hP, hlow, hlow',
    List.filter_cons_of_neg (by rw [hQ, if_pos rfl]; exact Bool.false_ne_true), hhigh]
  rfl

/-- Marking the lowest free frame takes the first one off the list. -/
theorem Whole.freeFrames_cons (h : Whole m) (h' : Whole m')
    (hplan : Frames.SamePlan m.frames m'.frames) (hi : i < m.frames.total)
    (hclear : m.marked i = false) (hfirst : ∀ j < i, m.marked j = true)
    (hmarked : ∀ j, m'.marked j = if j = i then true else m.marked j) :
    m.freeFrames = m.frames.addrOf i :: m'.freeFrames := by
  have haddr : m'.frames.addrOf = m.frames.addrOf := by
    funext j
    rw [Frames.addrOf, Frames.addrOf, hplan.region]
  have hrange := filter_range_of_first (P := fun j => !m.marked j) (Q := fun j => !m'.marked j) hi
    (by rw [hclear]; rfl) (fun j hj => by rw [hfirst j hj]; rfl) fun j => by
      rw [hmarked]
      split <;> rfl
  rw [h.freeFrames_eq, h'.freeFrames_eq, haddr, hplan.total, hrange, List.map_cons]

/-- Below a frame of the list only used addresses lie. -/
theorem Whole.lowest (h : Whole m) (hi : i < m.frames.total) (hclear : m.marked i = false)
    (hfirst : ∀ j < i, m.marked j = true) : m.isUsed (m.frames.addrOf i) = false ∧
      ∀ q, m.isUsed q = false → (m.frames.addrOf i).num ≤ q.num := by
  have hplan := h.consistent.plan
  refine ⟨by rw [h.isUsed_addrOf hi, hclear], fun q hq => ?_⟩
  by_cases hin : m.frames.region.contains q = true
  · obtain ⟨hlow, hhigh⟩ : m.frames.region.start.num ≤ q.num ∧ q.num < m.frames.region.stop.num :=
      (m.frames.region.contains_iff q).1 hin
    rw [isUsed_eq_marked hplan.ready hlow hhigh] at hq
    have hnum := Frames.num_addrOf hplan (Nat.le_of_lt hi)
    have hindex := m.frames.indexOf_eq (p := q) hlow
    by_contra hlt
    rw [hfirst _ (by omega)] at hq
    cases hq
  · rw [isUsed, Bool.eq_false_iff.2 hin, Bool.and_false, if_neg Bool.false_ne_true] at hq
    cases hq

/-! ## What can happen -/

/-- One thing that happens to the store, with the frames that are parked and those that are drawn by
it. -/
inductive Turn : Memory → List PhysAddr → List PhysAddr → Memory → Prop where
  | setup {m m' : Memory} {image : PhysRange} {r : Except FrameError Unit} :
      Memory.setup image m = .ok r m' → Turn m [] [] m'
  | allocate {m m' : Memory} {r : Option PhysAddr} :
      Memory.allocate m = .ok r m' → Turn m [] [] m'
  | release {m m' : Memory} {p : PhysAddr} {r : Except FrameError Unit} :
      Memory.release p m = .ok r m' → Turn m [] [] m'
  | park {m m' : Memory} {n k : Nat} : Memory.park n m = .ok k m' → Turn m (m.gone m') [] m'
  /-- A parked frame is drawn. -/
  | draw {m m' : Memory} {r : Option PhysAddr} :
      m.frames.waiting ≠ 0 → allocateTable m = .ok r m' → Turn m [] r.toList m'
  /-- No frame is parked. -/
  | fallBack {m m' : Memory} {r : Option PhysAddr} :
      m.frames.waiting = 0 → allocateTable m = .ok r m' → Turn m [] [] m'
  /-- The window is shifted to another place where RAM is reached. -/
  | shift {m m' : Memory} {d : Word} : shiftWindow d m = .ok () m' →
      m'.board.ram.Shows m'.frames.window → Turn m [] [] m'
  /-- Anything happens on the board that leaves the bitmap alone. -/
  | elsewhere {m : Memory} {board : Board} : Ram.SameBank m.board.ram board.ram →
      (∀ n, m.InBitmap n → board.ram.cell n = m.cell n) → Turn m [] [] { m with board := board }

/-- A store that has not been set up, over a range of whole pages. If there is any page, it lies in
RAM. -/
structure Unstarted (m : Memory) : Prop where
  ready : m.frames.ready = false
  parked : m.frames.parked = #[]
  drawn : m.frames.drawn = 0
  free : m.frames.free = 0
  start_aligned : m.frames.region.start.num % 4096 = 0
  stop_aligned : m.frames.region.stop.num % 4096 = 0
  shows : m.board.ram.Shows m.frames.window
  inside : m.frames.region.start.num < m.frames.region.stop.num →
    m.board.ram.Has m.frames.region.start.num
      (m.frames.region.stop.num - m.frames.region.start.num)

theorem Unset.unstarted {board : Board} {region : PhysRange} {window : Window}
    (h : Unset ⟨board, { region := region, window := window }⟩) :
    Unstarted ⟨board, { region := region, window := window }⟩ :=
  ⟨rfl, rfl, rfl, rfl, h.start_aligned, h.stop_aligned, h.shows, fun _ => h.inside⟩

/-- The states of a store over whole pages of RAM, from the moment it is made, with all frames that
were parked and all that were drawn until then. -/
inductive Life : List PhysAddr → List PhysAddr → Memory → Prop where
  | made {board : Board} {region : PhysRange} {window : Window} :
      Unstarted ⟨board, { region := region, window := window }⟩ →
      Life [] [] ⟨board, { region := region, window := window }⟩
  | turn {ps ds qs es : List PhysAddr} {m m' : Memory} :
      Life ps ds m → Turn m qs es m' → Life (ps ++ qs) (ds ++ es) m'

/-- The store has not been set up and has no frame, or it is consistent. -/
inductive Live (m : Memory) : Prop where
  | unstarted (h : Unstarted m)
  | whole (h : Whole m)

/-- Nothing is parked or drawn between the two states. -/
structure Idle (m m' : Memory) : Prop where
  live : Live m'
  parked : m'.frames.parked = m.frames.parked
  drawn : m'.frames.drawn = m.frames.drawn

theorem Keeps.whole (k : Keeps m m') (h : Whole m) : Whole m' :=
  ⟨k.consistent h.consistent, by rw [k.plan.region]; exact h.whole⟩

theorem Keeps.unstarted (k : Keeps m m') (h : Unstarted m) : Unstarted m' where
  ready := by rw [k.plan.ready]; exact h.ready
  parked := by rw [k.parked]; exact h.parked
  drawn := by rw [k.drawn]; exact h.drawn
  free := by rw [k.free]; exact h.free
  start_aligned := by rw [k.plan.region]; exact h.start_aligned
  stop_aligned := by rw [k.plan.region]; exact h.stop_aligned
  shows := by rw [k.ram, k.plan.window]; exact h.shows
  inside := by rw [k.ram, k.plan.region]; exact h.inside

theorem Live.keeps (h : Live m) (k : Keeps m m') : Idle m m' := by
  refine ⟨?_, k.parked, k.drawn⟩
  cases h with
  | unstarted h => exact .unstarted (k.unstarted h)
  | whole h => exact .whole (k.whole h)

theorem Reseen.unstarted (r : Reseen m m') (h : Unstarted m) : Unstarted m' where
  ready := by rw [r.frames]; exact h.ready
  parked := by rw [r.frames]; exact h.parked
  drawn := by rw [r.frames]; exact h.drawn
  free := by rw [r.frames]; exact h.free
  start_aligned := by rw [r.frames]; exact h.start_aligned
  stop_aligned := by rw [r.frames]; exact h.stop_aligned
  shows := r.shows
  inside := by rw [r.bank.has, r.frames]; exact h.inside

theorem Live.reseen (h : Live m) (r : Reseen m m') : Idle m m' := by
  refine ⟨?_, by rw [r.frames], by rw [r.frames]⟩
  cases h with
  | unstarted h => exact .unstarted (r.unstarted h)
  | whole h => exact .whole ⟨r.consistent h.consistent, by rw [r.frames]; exact h.whole⟩

theorem Live.shows (h : Live m) : m.board.ram.Shows m.frames.window := by
  cases h with
  | unstarted h => exact h.shows
  | whole h => exact h.consistent.shows

theorem Live.drawn_le (h : Live m) : m.frames.drawn ≤ m.frames.parked.size := by
  cases h with
  | unstarted h => rw [h.drawn]; exact Nat.zero_le _
  | whole h => exact h.consistent.drawn_le

theorem Live.parked_le (h : Live m) : m.frames.parked.size ≤ parkLimit := by
  cases h with
  | unstarted h => rw [h.parked]; exact Nat.zero_le _
  | whole h => exact h.consistent.parked_le

theorem Live.length_freeFrames (h : Live m) : m.freeFrames.length = m.frames.free := by
  cases h with
  | unstarted h => rw [freeFrames_of_unready h.ready, h.free]; rfl
  | whole h => exact h.length_freeFrames

theorem Live.pairwise_freeFrames (h : Live m) :
    m.freeFrames.Pairwise fun p q => p.num < q.num := by
  cases h with
  | unstarted h => rw [freeFrames_of_unready h.ready]; exact List.Pairwise.nil
  | whole h => exact h.pairwise_freeFrames

/-! ## Setting up -/

/-- An image that is accepted lies in the range, so there is RAM under it. -/
theorem Unstarted.blank {image : PhysRange} (h : Unstarted m)
    (henclosed : Enclosed m.frames.region image) : Blank m :=
  ⟨h.ready, h.parked, h.drawn, h.start_aligned, h.shows,
    h.inside (Nat.lt_of_le_of_lt henclosed.low henclosed.high)⟩

theorem run_setup_again (h : m.frames.ready = true) (image : PhysRange) :
    Memory.setup image m = .ok (.ok ()) m := by
  rw [Memory.setup, run_bind_ok (run_get m), h, if_pos rfl]
  rfl

theorem Live.setup {image : PhysRange} {r : Except FrameError Unit} (h : Live m)
    (hrun : Memory.setup image m = .ok r m') : Idle m m' := by
  cases h with
  | unstarted h =>
    have hblank : Enclosed m.frames.region image → Blank m := h.blank
    rcases setup_cases_of_blank h.ready hblank with
      ⟨e, m₁, hrun₁, hframes, hram⟩ | hstop | ⟨m₁, hrun₁, hset⟩
    · cases hrun.symm.trans hrun₁
      refine (Live.unstarted h).keeps ⟨hram, ?_, ?_, ?_, ?_⟩
      · rw [hframes]
        exact Frames.SamePlan.refl _
      all_goals rw [hframes]
    · cases hrun.symm.trans hstop
    · cases hrun.symm.trans hrun₁
      have hdrawn := hset.consistent.drawn_le
      rw [hset.parked] at hdrawn
      refine ⟨.whole ⟨hset.consistent, by rw [hset.region]; exact h.stop_aligned⟩, ?_, ?_⟩
      · rw [hset.parked, h.parked]
      · rw [h.drawn]
        exact Nat.le_zero.1 hdrawn
  | whole h =>
    cases hrun.symm.trans (run_setup_again h.consistent.plan.ready image)
    exact ⟨.whole h, rfl, rfl⟩

/-! ## Taking a frame -/

/-- Without a free frame nothing is claimed, else the first free one. -/
theorem Live.claim_cases (h : Live m) : (m.freeFrames = [] ∧ claim m = .ok none m) ∨
    Whole m ∧ ∃ i m', claim m = .ok (some (m.frames.addrOf i)) m' ∧ Claims m m' i := by
  cases h with
  | unstarted h => exact Or.inl ⟨freeFrames_of_unready h.ready, claim_of_unready h.ready⟩
  | whole h =>
    rcases claim_spec h.consistent with ⟨hrun, hfree⟩ | hclaim
    · exact Or.inl ⟨List.length_eq_zero_iff.1 (h.length_freeFrames.trans hfree), hrun⟩
    · exact Or.inr ⟨h, hclaim⟩

/-- The lowest free frame is taken. -/
structure FirstTaken (m m' : Memory) (p : PhysAddr) : Prop where
  free : m.freeFrames = p :: m'.freeFrames
  unused : m.isUsed p = false
  lowest : ∀ q, m.isUsed q = false → p.num ≤ q.num
  idle : Idle m m'

theorem Live.allocate_cases (h : Live m) :
    (m.freeFrames = [] ∧ ∃ m', allocate m = .ok none m' ∧ Idle m m') ∨
      ∃ p m', allocate m = .ok (some p) m' ∧ FirstTaken m m' p := by
  rcases h.claim_cases with ⟨hnone, hrun⟩ | ⟨hw, i, m₁, hrun, hclaim⟩
  · obtain ⟨text, hrun'⟩ := run_allocate_none hrun
    refine Or.inl ⟨hnone, _, hrun', h.keeps ?_⟩
    exact ⟨rfl, ⟨rfl, rfl, rfl, rfl, rfl, rfl, rfl⟩, rfl, rfl, rfl⟩
  · have hc := hw.consistent
    have hspares := hclaim.spares hc
    obtain ⟨z, hzero, htouch, -⟩ :=
      touches_zero hspares.consistent.usable (hspares.plan.manages.2 (hclaim.taken hc).1)
    have htakes := hclaim.takes hc htouch
    have hindex := Frames.indexOf_addrOf hc.plan (Nat.le_of_lt hclaim.below)
    have hmarked := htakes.marked
    rw [hindex] at hmarked
    have hw' : Whole _ := ⟨htakes.consistent, by rw [htakes.plan.region]; exact hw.whole⟩
    obtain ⟨hunused, hlowest⟩ := hw.lowest hclaim.below hclaim.unmarked hclaim.first
    refine Or.inr ⟨_, _, run_allocate hrun hzero, ?_, hunused, hlowest, .whole hw', ?_, ?_⟩
    · exact hw.freeFrames_cons hw' htakes.plan hclaim.below hclaim.unmarked hclaim.first hmarked
    all_goals rw [htakes.frames]; rfl

/-! ## Parking -/

/-- The first `k` free frames are parked, and counted. -/
structure Stocks (m m' : Memory) (k : Nat) : Prop where
  live : Live m'
  plan : Frames.SamePlan m.frames m'.frames
  parked : m'.frames.parked.toList = m.frames.parked.toList ++ m.freeFrames.take k
  drawn : m'.frames.drawn = m.frames.drawn
  freeFrames : m'.freeFrames = m.freeFrames.drop k
  free : m'.frames.free + k = m.frames.free
  current : m'.frames.stats.current = m.frames.stats.current + k
  failed : m'.frames.stats.failed = m.frames.stats.failed

theorem Stocks.none (h : Live m) : Stocks m m 0 where
  live := h
  plan := Frames.SamePlan.refl _
  parked := by rw [List.take_zero, List.append_nil]
  drawn := rfl
  freeFrames := List.drop_zero.symm
  free := rfl
  current := rfl
  failed := rfl

/-- One frame is parked, and then others. -/
theorem Stocks.cons (h : Whole m) (s : Shelves m m' p) (hfree : m.freeFrames = p :: m'.freeFrames)
    (hrest : Stocks m' m'' k) : Stocks m m'' (k + 1) := by
  have hpos : m.frames.free = m'.frames.free + 1 := by
    have hlive : Live m' := .whole ⟨s.consistent, by rw [s.plan.region]; exact h.whole⟩
    rw [← h.length_freeFrames, ← hlive.length_freeFrames, hfree, List.length_cons]
  have hparked : m'.frames.parked.toList = m.frames.parked.toList ++ [p] := by
    rw [s.frames]
    exact Array.toList_push
  constructor
  case live => exact hrest.live
  case plan => exact s.plan.trans hrest.plan
  case parked =>
    rw [hrest.parked, hparked, hfree, List.take_succ_cons, List.append_assoc, List.singleton_append]
  case drawn => rw [hrest.drawn, s.frames]; rfl
  case freeFrames => rw [hrest.freeFrames, hfree, List.drop_succ_cons]
  case free =>
    have hfree' := hrest.free
    omega
  case current =>
    rw [hrest.current, s.frames]
    show m.frames.stats.current + 1 + k = _
    omega
  case failed => rw [hrest.failed, s.frames]; rfl

theorem Stocks.noted (s : Stocks m m' k) (l : Level) (c : Component) (text : String) :
    Stocks m (m'.noted l c text) k where
  live := (s.live.keeps (keeps_noted ..)).live
  plan := s.plan
  parked := s.parked
  drawn := s.drawn
  freeFrames := s.freeFrames
  free := s.free
  current := s.current
  failed := s.failed

/-- Frames are parked while more are asked for, there is room and one is free. -/
theorem Live.parkUpTo (h : Live m) (n : Nat) : ∃ k m', parkUpTo n m = .ok k m' ∧ Stocks m m' k ∧
    k = min n (min m.frames.free (parkLimit - m.frames.parked.size)) := by
  induction n generalizing m with
  | zero => exact ⟨0, m, rfl, Stocks.none h, by omega⟩
  | succ n ih =>
    by_cases hroom : m.frames.parked.size < parkLimit
    · rcases h.claim_cases with ⟨hnone, hrun⟩ | ⟨hw, i, m₁, hrun, hclaim⟩
      · have hfree := h.length_freeFrames
        rw [hnone, List.length_nil] at hfree
        exact ⟨0, m, run_parkUpTo_none hrun _, Stocks.none h, by omega⟩
      · have hs := hclaim.shelves hw.consistent hroom
        have hindex := Frames.indexOf_addrOf hw.consistent.plan (Nat.le_of_lt hclaim.below)
        have hmarked := hs.marked
        rw [hindex] at hmarked
        have hw' : Whole _ := ⟨hs.consistent, by rw [hs.plan.region]; exact hw.whole⟩
        have hcons := hw.freeFrames_cons hw' hs.plan hclaim.below hclaim.unmarked hclaim.first
          hmarked
        obtain ⟨k, m', hrest, hstocks, hk⟩ := ih (.whole hw')
        have hfree : m.frames.free - 1 + 1 = m.frames.free := by
          rw [← h.length_freeFrames, hcons, List.length_cons, Nat.add_sub_cancel]
        rw [hs.frames, Array.size_push] at hk
        refine ⟨k + 1, m', run_parkUpTo_succ hroom hrun hrest, Stocks.cons hw hs hcons hstocks, ?_⟩
        change k = min n (min (m.frames.free - 1) (parkLimit - (m.frames.parked.size + 1))) at hk
        omega
    · exact ⟨0, m, run_parkUpTo_full hroom _, Stocks.none h, by omega⟩

theorem Live.park (h : Live m) (n : Nat) : ∃ k m', park n m = .ok k m' ∧ Stocks m m' k ∧
    k = min n (min m.frames.free (parkLimit - m.frames.parked.size)) := by
  obtain ⟨k, m₁, hrun, hstocks, hk⟩ := h.parkUpTo (min n parkLimit)
  obtain ⟨l, text, hpark⟩ := run_park hrun
  exact ⟨k, _, hpark, hstocks.noted l .frames text, by omega⟩

/-- The frames that became used are the ones that were parked. -/
theorem Stocks.gone (h : Live m) (s : Stocks m m' k) : m.gone m' = m.freeFrames.take k := by
  have hpages : m'.frames.region.pages = m.frames.region.pages := by rw [s.plan.region]
  have hsplit := List.take_append_drop k m.freeFrames
  -- A frame of the first part is not among those that are left.
  have hfirst : ∀ p ∈ m.freeFrames.take k, m'.isUsed p = true := by
    intro p hp
    have hnot : p ∉ m'.freeFrames := by
      intro hmem
      rw [s.freeFrames] at hmem
      have hsorted := h.pairwise_freeFrames
      rw [← hsplit, List.pairwise_append] at hsorted
      exact Nat.lt_irrefl _ (hsorted.2.2 p hp p hmem)
    have hpage := (mem_freeFrames.1 (List.mem_of_mem_take hp)).1
    rw [mem_freeFrames, hpages, not_and] at hnot
    exact Bool.of_not_eq_false (hnot hpage)
  have hrest : ∀ p ∈ m.freeFrames.drop k, ¬ m'.isUsed p = true := by
    intro p hp
    rw [← s.freeFrames, mem_freeFrames] at hp
    rw [hp.2]
    exact Bool.false_ne_true
  calc m.gone m'
      = (m.freeFrames.take k ++ m.freeFrames.drop k).filter fun p => m'.isUsed p := by
        rw [hsplit, Memory.gone]
    _ = m.freeFrames.take k := by
        rw [List.filter_append, List.filter_eq_self.2 hfirst, List.filter_eq_nil_iff.2 hrest,
          List.append_nil]

/-! ## Drawing -/

/-- The next parked frame is handed out, zeroed, and no other byte changes. -/
structure NextDrawn (m m' : Memory) (p : PhysAddr) : Prop where
  live : Live m'
  pool : m.frames.pool = p :: m'.frames.pool
  frames : m'.frames = { m.frames with drawn := m.frames.drawn + 1 }
  used : ∀ q, m'.isUsed q = m.isUsed q
  zeroed : ∀ n, p.num ≤ n → n < p.num + 4096 → m'.cell n = 0
  cells : ∀ n, m.board.ram.base.num ≤ n → n < p.num ∨ p.num + 4096 ≤ n → m'.cell n = m.cell n
  bitmap : ∀ n, m.InBitmap n → m'.cell n = m.cell n

theorem isUsed_congr (hready : m'.frames.ready = m.frames.ready)
    (hregion : m'.frames.region = m.frames.region) (hmarked : ∀ j, m'.marked j = m.marked j)
    (q : PhysAddr) : m'.isUsed q = m.isUsed q := by
  rw [isUsed, isUsed, hready, hregion, hmarked, Frames.indexOf, Frames.indexOf, hregion]

/-- Drawing never touches the bitmap, and where nothing is parked a frame is taken. -/
theorem Live.allocateTable_cases (h : Live m) :
    (m.frames.pool = [] ∧ allocateTable m = allocate m) ∨
      ∃ p m', allocateTable m = .ok (some p) m' ∧ NextDrawn m m' p := by
  cases h with
  | unstarted h =>
    refine Or.inl ⟨?_, run_allocateTable_empty ?_⟩
    · rw [Frames.pool, h.parked, h.drawn]
      rfl
    · rw [h.parked]
      rfl
  | whole h =>
    have hc := h.consistent
    rcases allocateTable_draws hc with hnone | ⟨p, m', hrun, hdraws, -⟩
    · exact Or.inl hnone
    · have hhas := hc.has (hc.pool_managed p hdraws.mem_pool)
      have hnext : m.frames.parked[m.frames.drawn]? = some p := by
        have hhead := congrArg List.head? hdraws.pool
        rwa [Frames.pool, List.head?_drop, Array.getElem?_toList] at hhead
      have hcell : ∀ n, m.board.ram.base.num ≤ n →
          m'.cell n = if p.num ≤ n ∧ n < p.num + 4096 then 0 else m.cell n := by
        cases hrun.symm.trans (run_allocateTable_next hnext rfl)
        exact fun n hn => Ram.cell_clear hc.shows hhas hn
      have hlow := hhas.1
      refine Or.inr ⟨p, m', hrun, ?_⟩
      constructor
      case live => exact .whole ⟨hdraws.consistent, by rw [hdraws.plan.region]; exact h.whole⟩
      case pool => exact hdraws.pool
      case frames => exact hdraws.frames
      case used => exact isUsed_congr hdraws.plan.ready hdraws.plan.region hdraws.marked
      case zeroed => exact fun n hn hn' => (hcell n (by omega)).trans (if_pos ⟨hn, hn'⟩)
      case cells => exact fun n hn hout => (hcell n hn).trans (if_neg (by omega))
      case bitmap =>
        intro n hn
        have hbase := hc.bitmapInside.has.1
        have hin := hn.1
        refine (hcell n (by omega)).trans (if_neg fun hp => ?_)
        exact hc.not_inBitmap (hc.pool_managed p hdraws.mem_pool) hp.1 hn

/-! ## Giving back -/

theorem Live.release {r : Except FrameError Unit} (h : Live m) (hrun : release p m = .ok r m') :
    Idle m m' := by
  rcases refusal_of_release hrun with ⟨-, hnone⟩ | ⟨e, -, -, hkeeps⟩
  · cases h with
    | unstarted h =>
      rw [refusal, h.ready, if_pos (by rfl)] at hnone
      cases hnone
    | whole h =>
      have hc := h.consistent
      obtain ⟨m₁, hrun₁, hreleases⟩ := release_spec hc ((refusal_eq_none_iff hc h.whole).1 hnone)
      cases hrun.symm.trans hrun₁
      refine ⟨.whole ⟨hreleases.consistent, by rw [hreleases.plan.region]; exact h.whole⟩, ?_, ?_⟩
      all_goals rw [hreleases.frames]; rfl
  · exact h.keeps hkeeps

/-! ## Whole lives -/

theorem Live.shiftWindow {d : Word} (h : Live m) (hrun : shiftWindow d m = .ok () m')
    (hshows : m'.board.ram.Shows m'.frames.window) : Idle m m' := by
  cases hrun
  exact h.reseen ⟨rfl, Ram.SameBank.refl _, hshows, fun _ _ => rfl⟩

theorem Live.elsewhere {board : Board} (h : Live m) (hbank : Ram.SameBank m.board.ram board.ram)
    (hcells : ∀ n, m.InBitmap n → board.ram.cell n = m.cell n) :
    Idle m { m with board := board } :=
  h.reseen ⟨rfl, hbank, hbank.shows h.shows, hcells⟩

/-- The frames parked so far are those drawn so far, in the same order, and then those that wait. -/
structure Queued (ps ds : List PhysAddr) (m : Memory) : Prop where
  live : Live m
  order : ps = ds ++ m.frames.pool
  drawn : m.frames.drawn = ds.length

theorem Queued.idle (h : Queued ps ds m) (hidle : Idle m m') : Queued (ps ++ []) (ds ++ []) m' := by
  rw [List.append_nil, List.append_nil]
  refine ⟨hidle.live, ?_, by rw [hidle.drawn]; exact h.drawn⟩
  rw [Frames.pool, hidle.parked, hidle.drawn]
  exact h.order

theorem Stocks.pool (h : Live m) (s : Stocks m m' k) :
    m'.frames.pool = m.frames.pool ++ m.freeFrames.take k := by
  rw [Frames.pool, s.parked, s.drawn,
    List.drop_append_of_le_length (by rw [Array.length_toList]; exact h.drawn_le), Frames.pool]

theorem Queued.stock (h : Queued ps ds m) (s : Stocks m m' k) :
    Queued (ps ++ m.gone m') (ds ++ []) m' := by
  rw [List.append_nil]
  refine ⟨s.live, ?_, by rw [s.drawn]; exact h.drawn⟩
  rw [s.gone h.live, s.pool h.live, h.order, List.append_assoc]

theorem Queued.draw (h : Queued ps ds m) (hdrawn : NextDrawn m m' p) :
    Queued (ps ++ []) (ds ++ [p]) m' := by
  refine ⟨hdrawn.live, ?_, ?_⟩
  · rw [h.order, hdrawn.pool, List.append_nil, List.append_assoc, List.singleton_append]
  · rw [hdrawn.frames, List.length_append, List.length_singleton, ← h.drawn]

theorem Queued.turn (h : Queued ps ds m) (ht : Turn m qs es m') :
    Queued (ps ++ qs) (ds ++ es) m' := by
  have hallocate : ∀ {r}, allocate m = .ok r m' → Queued (ps ++ []) (ds ++ []) m' := by
    intro r hrun
    rcases h.live.allocate_cases with ⟨-, m₁, hrun₁, hidle⟩ | ⟨p, m₁, hrun₁, htaken⟩
    · cases hrun.symm.trans hrun₁
      exact h.idle hidle
    · cases hrun.symm.trans hrun₁
      exact h.idle htaken.idle
  cases ht with
  | setup hrun => exact h.idle (h.live.setup hrun)
  | allocate hrun => exact hallocate hrun
  | release hrun => exact h.idle (h.live.release hrun)
  | park hrun =>
    obtain ⟨k, m₁, hrun₁, hstocks, -⟩ := h.live.park _
    cases hrun.symm.trans hrun₁
    exact h.stock hstocks
  | draw hwaiting hrun =>
    rcases h.live.allocateTable_cases with ⟨hpool, -⟩ | ⟨p, m₁, hrun₁, hdrawn⟩
    · rw [Frames.waiting_eq, hpool] at hwaiting
      exact absurd rfl hwaiting
    · cases hrun.symm.trans hrun₁
      exact h.draw hdrawn
  | fallBack hwaiting hrun =>
    rcases h.live.allocateTable_cases with ⟨-, hsame⟩ | ⟨p, m₁, -, hdrawn⟩
    · exact hallocate (hsame.symm.trans hrun)
    · rw [Frames.waiting_eq, hdrawn.pool] at hwaiting
      cases hwaiting
  | shift hrun hshows => exact h.idle (h.live.shiftWindow hrun hshows)
  | elsewhere hbank hcells => exact h.idle (h.live.elsewhere hbank hcells)

theorem Life.queued (h : Life ps ds m) : Queued ps ds m := by
  induction h with
  | made h => exact ⟨.unstarted h, rfl, rfl⟩
  | turn _ ht ih => exact ih.turn ht

end Memory

end HighHalf
