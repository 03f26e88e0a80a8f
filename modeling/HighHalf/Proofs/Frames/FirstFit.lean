import HighHalf.Proofs.Frames.Lifetime

/-!
# First fit, and the order of the parked frames

In every state of its life the store hands out the lowest free frame and fails only where none is
free, as its bitmap and its count agree. Parked frames are the lowest free ones and are drawn in the
order in which they were parked.

A place among the parked frames is never used again. What limits parking is therefore not how many
frames wait, but how many were ever parked: each frame that is drawn takes a place with it.

## Main definitions

* `Memory.FirstFit`: which frames are handed out, parked and drawn
* `Memory.Stocking`: how many frames are parked
-/

namespace HighHalf

namespace Memory

variable {m m' : Memory} {p : PhysAddr} {n : Nat} {ps ds rest : List PhysAddr}

/-! ## Which frames -/

/-- Which frames the store hands out, parks and draws after the frames `ps` were parked and `ds`
drawn. -/
structure FirstFit (ps ds : List PhysAddr) (m : Memory) : Prop where
  /-- The lowest address that is not used is handed out. -/
  lowest : ∃ r m', allocate m = .ok r m' ∧
    (∀ p, r = some p ↔ m.isUsed p = false ∧ ∀ q, m.isUsed q = false → p.num ≤ q.num) ∧
    (r = none ↔ ∀ p ∈ m.frames.region.pages, m.isUsed p = true) ∧
    (r = none ↔ m.frames.free = 0)
  ascending : m.freeFrames.Pairwise fun p q => p.num < q.num
  /-- The first free frames are parked, behind those that wait. -/
  parks : ∀ n, ∃ k m', park n m = .ok k m' ∧ m.gone m' = m.freeFrames.take k ∧
    m'.freeFrames = m.freeFrames.drop k ∧ m'.frames.pool = m.frames.pool ++ m.freeFrames.take k
  /-- Frames are drawn in the order in which they were parked. -/
  order : ps = ds ++ m.frames.pool
  draws : ∀ p rest, m.frames.pool = p :: rest → ∃ m', allocateTable m = .ok (some p) m' ∧
    NextDrawn m m' p ∧ m'.frames.pool = rest
  fallsBack : m.frames.pool = [] → allocateTable m = allocate m

theorem Live.free_eq_zero_iff (h : Live m) : m.frames.free = 0 ↔ m.freeFrames = [] := by
  rw [← h.length_freeFrames, List.length_eq_zero_iff]

theorem freeFrames_eq_nil_iff :
    m.freeFrames = [] ↔ ∀ p ∈ m.frames.region.pages, m.isUsed p = true := by
  simp only [freeFrames, List.filter_eq_nil_iff, Bool.not_eq_true', Bool.not_eq_false]

/-- An address that is not used lies in a free frame, so there is one. -/
theorem Live.isUsed_of_nil (h : Live m) (hnone : m.freeFrames = []) (p : PhysAddr) :
    m.isUsed p = true := by
  cases h with
  | unstarted h => exact isUsed_of_unready h.ready p
  | whole h =>
    have hplan := h.consistent.plan
    by_cases hin : m.frames.region.contains p = true
    · obtain ⟨hlow, hhigh⟩ : m.frames.region.start.num ≤ p.num ∧
          p.num < m.frames.region.stop.num := (m.frames.region.contains_iff p).1 hin
      have hindex := m.frames.indexOf_eq hlow
      have htotal := hplan.total_eq
      have hstart := hplan.aligned
      have hstop := h.whole
      have hlt : m.frames.indexOf p < m.frames.total := by omega
      have hpage : m.frames.addrOf (m.frames.indexOf p) ∈ m.frames.region.pages := by
        rw [PhysRange.pages, List.mem_map]
        exact ⟨_, List.mem_range.2 (by rw [h.steps]; exact hlt), rfl⟩
      have hused := freeFrames_eq_nil_iff.1 hnone _ hpage
      rw [h.isUsed_addrOf hlt] at hused
      rw [isUsed_eq_marked hplan.ready hlow hhigh]
      exact hused
    · rw [isUsed, Bool.eq_false_iff.2 hin, Bool.and_false, if_neg Bool.false_ne_true]

theorem Live.lowest (h : Live m) : ∃ r m', allocate m = .ok r m' ∧
    (∀ p, r = some p ↔ m.isUsed p = false ∧ ∀ q, m.isUsed q = false → p.num ≤ q.num) ∧
    (r = none ↔ m.freeFrames = []) := by
  rcases h.allocate_cases with ⟨hnone, m', hrun, -⟩ | ⟨p, m', hrun, htaken⟩
  · refine ⟨none, m', hrun, fun p => ⟨nofun, fun hp => ?_⟩, fun _ => hnone, fun _ => rfl⟩
    have hused := h.isUsed_of_nil hnone p
    rw [hp.1] at hused
    cases hused
  · refine ⟨some p, m', hrun, fun q => ⟨?_, fun hq => ?_⟩, nofun, fun hnone => ?_⟩
    · rintro ⟨⟩
      exact ⟨htaken.unused, htaken.lowest⟩
    · have hpq := htaken.lowest q hq.1
      have hqp := hq.2 p htaken.unused
      exact congrArg some (PhysAddr.num_inj (Nat.le_antisymm hpq hqp))
    · rw [htaken.free] at hnone
      cases hnone

/-- In every state of its life the store is a first-fit store. -/
theorem Life.firstFit (h : Life ps ds m) : FirstFit ps ds m := by
  have hq := h.queued
  have hlive := hq.live
  constructor
  case lowest =>
    obtain ⟨r, m', hrun, hlowest, hnone⟩ := hlive.lowest
    exact ⟨r, m', hrun, hlowest, hnone.trans freeFrames_eq_nil_iff,
      hnone.trans hlive.free_eq_zero_iff.symm⟩
  case ascending => exact hlive.pairwise_freeFrames
  case parks =>
    intro n
    obtain ⟨k, m', hrun, hstocks, -⟩ := hlive.park n
    exact ⟨k, m', hrun, hstocks.gone hlive, hstocks.freeFrames, hstocks.pool hlive⟩
  case order => exact hq.order
  case draws =>
    intro p rest hpool
    rcases hlive.allocateTable_cases with ⟨hnil, -⟩ | ⟨q, m', hrun, hdrawn⟩
    · rw [hnil] at hpool
      cases hpool
    · have hsame := hdrawn.pool.symm.trans hpool
      rw [List.cons.injEq] at hsame
      obtain ⟨rfl, hrest⟩ := hsame
      exact ⟨m', hrun, hdrawn, hrest⟩
  case fallsBack =>
    intro hpool
    rcases hlive.allocateTable_cases with ⟨-, hsame⟩ | ⟨q, m', -, hdrawn⟩
    · exact hsame
    · rw [hdrawn.pool] at hpool
      cases hpool

/-- A life in which frames are parked right after setting up, and one of them is drawn. -/
theorem exists_life_drawn {board : Board} {region : PhysRange} {window : Window}
    {image : PhysRange} {m : Memory}
    (hunset : Unstarted ⟨board, { region := region, window := window }⟩)
    (hsetup : setup image ⟨board, { region := region, window := window }⟩ = .ok (.ok ()) m)
    (hparked : m.frames.parked = #[]) (hn : 0 < n) (hfree : n ≤ m.frames.free)
    (hroom : n ≤ parkLimit) : ∃ ps ds m', Life ps ds m' ∧ ps.length = n ∧ ds.length = 1 ∧
      m'.frames.free + n = m.frames.free := by
  have hlife := (Life.made hunset).turn (Turn.setup hsetup)
  have hq := hlife.queued
  obtain ⟨k, m₁, hpark, hstocks, hk⟩ := hq.live.park n
  rw [hparked, Array.size_empty] at hk
  have hlife₁ := hlife.turn (Turn.park hpark)
  have hlength : (m.gone m₁).length = n := by
    rw [hstocks.gone hq.live, List.length_take, hq.live.length_freeFrames]
    omega
  have hpool := hlife₁.queued.order
  rcases hlife₁.queued.live.allocateTable_cases with ⟨hnone, -⟩ | ⟨p, m₂, hdraw, hdrawn⟩
  · -- What was parked waits.
    rw [hnone] at hpool
    have hnil := congrArg List.length hpool
    simp only [List.nil_append, List.append_nil, List.length_nil] at hnil
    omega
  · have hwaiting : m₁.frames.waiting ≠ 0 := by
      rw [Frames.waiting_eq, hdrawn.pool]
      exact Nat.succ_ne_zero _
    have hfree₁ := hstocks.free
    refine ⟨_, _, m₂, hlife₁.turn (Turn.draw hwaiting hdraw), ?_, rfl, ?_⟩
    · simpa using hlength
    · rw [hdrawn.frames]
      show m₁.frames.free + n = _
      omega

/-- Of three frames parked in the small store one was drawn. -/
theorem Life.firstFit_sample : ∃ ps ds m, Life ps ds m ∧ ps.length = 3 ∧ ds.length = 1 ∧
    m.frames.free = 56 ∧ FirstFit ps ds m := by
  obtain ⟨m₀, hsetup, hset, hfree, -, -⟩ := setUp_sample
  obtain ⟨ps, ds, m, hlife, hps, hds, hleft⟩ := exists_life_drawn (n := 3)
    unset_sample.unstarted hsetup hset.parked (by decide) (by omega) (by decide)
  exact ⟨ps, ds, m, hlife, hps, hds, by omega, hlife.firstFit⟩

/-! ## How many frames -/

/-- How many frames are parked when `n` are asked for, after the frames `ps` were parked and `ds`
drawn. -/
structure Stocking (ps ds : List PhysAddr) (m : Memory) (n : Nat) : Prop where
  waiting : m.frames.waiting + ds.length = ps.length
  bound : ps.length ≤ parkLimit
  /-- Room is counted from the frames parked so far. As many as there is room for beside those that
  wait are parked only while none was drawn, or where the room that is left is enough. -/
  parks : ∃ k m', park n m = .ok k m' ∧
    k = min n (min m.frames.free (parkLimit - ps.length)) ∧
    m'.frames.free + k = m.frames.free ∧ m'.frames.waiting = m.frames.waiting + k ∧
    m'.frames.stats.current = m.frames.stats.current + k ∧
    m'.frames.stats.failed = m.frames.stats.failed ∧
    (k = min n (min m.frames.free (parkLimit - m.frames.waiting)) ↔
      ds = [] ∨ min n m.frames.free ≤ parkLimit - ps.length)

/-- Parking goes on until enough frames are parked, none is free or all places were used once. -/
theorem Life.stocking (h : Life ps ds m) (n : Nat) : Stocking ps ds m n := by
  have hq := h.queued
  have hwaiting : m.frames.waiting + ds.length = ps.length := by
    rw [Frames.waiting_eq, hq.order, List.length_append, Nat.add_comm]
  have hsize : m.frames.parked.size = ps.length := by
    have hle := hq.live.drawn_le
    have hdrawn := hq.drawn
    rw [Frames.waiting] at hwaiting
    omega
  have hbound : ps.length ≤ parkLimit := hsize ▸ hq.live.parked_le
  refine ⟨hwaiting, hbound, ?_⟩
  obtain ⟨k, m', hrun, hstocks, hk⟩ := hq.live.park n
  rw [hsize] at hk
  have hk' : k ≤ m.freeFrames.length := by
    rw [hq.live.length_freeFrames]
    omega
  refine ⟨k, m', hrun, hk, hstocks.free, ?_, hstocks.current, hstocks.failed, ?_⟩
  · rw [Frames.waiting_eq, hstocks.pool hq.live, List.length_append, ← Frames.waiting_eq,
      List.length_take_of_le hk']
  · rw [← List.length_eq_zero_iff]
    omega

/-- A store over 160 pages. -/
def wideSample : Memory where
  board := .fresh (.zeroed ⟨0x40000000⟩ 160 0x40000000 0)
    (.fresh (.all 0) ⟨fun _ _ v => v, 0, id, fun a _ => a⟩) ⟨0x09000000, true⟩
  frames := { region := .ofWords 0x40000000 0x400A0000, window := .identity }

/-- The image in that store: its first page. -/
def wideImage : PhysRange := .ofWords 0x40000000 0x40001000

theorem unset_wideSample : Unset wideSample := by
  have hsize : wideSample.board.ram.size = 4096 * 160 := size_zeroBytes _
  refine ⟨rfl, rfl, rfl, rfl, rfl, ?_, ?_⟩
  · have hw : wideSample.board.ram.Shows wideSample.board.ram.window :=
      Ram.shows_window (by rw [hsize]; decide)
    exact hw
  · rw [Ram.Has, hsize]
    decide

theorem setUp_wideSample : ∃ m, setup wideImage wideSample = .ok (.ok ()) m ∧
    m.frames.parked = #[] ∧ m.frames.free = 158 := by
  have hfits : Fits wideSample wideImage (.ofWords 0x40001000 0x40002000) := by
    refine ⟨by decide, by decide, by decide, ?_, by decide⟩
    decide
  obtain ⟨m, hrun, hplaced⟩ := placed_of_fits unset_wideSample.blank hfits
  have hcount := hplaced.count
  have hreserved := hplaced.reserved
  rw [hplaced.size, show wideSample.frameCount = 160 by decide,
    show wideSample.frames.region.start.num = 0x40000000 from rfl,
    show bitmapTop wideImage.stop.num ((160 + 7) / 8) = 0x40002000 by decide] at hreserved
  rw [show wideSample.frameCount = 160 by decide] at hcount
  exact ⟨m, hrun, (setup_spec unset_wideSample.blank hrun).parked, by omega⟩

/-- Where 128 frames were parked and one of them was drawn, 127 wait and 30 are free, but no frame
is parked any more. -/
theorem Life.stocking_sample : ∃ ps ds m, Life ps ds m ∧ Stocking ps ds m 1 ∧
    m.frames.waiting = 127 ∧ m.frames.free = 30 ∧ ∃ m', park 1 m = .ok 0 m' := by
  obtain ⟨m₀, hsetup, hparked, hfree⟩ := setUp_wideSample
  obtain ⟨ps, ds, m, hlife, hps, hds, hleft⟩ := exists_life_drawn (n := 128)
    unset_wideSample.unstarted hsetup hparked (by decide) (by omega) (by decide)
  have hstocking := hlife.stocking 1
  obtain ⟨k, m', hrun, hk, -⟩ := hstocking.parks
  have hlimit : parkLimit = 128 := rfl
  have hwaiting := hstocking.waiting
  have hzero : k = 0 := by omega
  exact ⟨ps, ds, m, hlife, hstocking, by omega, by omega, m', hzero ▸ hrun⟩

end Memory

end HighHalf
