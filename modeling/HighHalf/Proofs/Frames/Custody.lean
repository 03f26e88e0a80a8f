import HighHalf.Proofs.Frames.Effects
import HighHalf.Proofs.Frames.Setup

/-!
# Runs of the frame store

A run begins with a store that was just set up and goes on with any requests: taking frames,
taking frames for tables, parking frames, giving back any address whatever, and writes of holders
into the frames that they hold. The history of a run says what every operation came to. In every
state the bitmap, the count of free frames, the counters and the parked frames tell what the
history tells.

## Main definitions

* `Outcome.Handed`: what a history says of a frame that is out
* `Custody`: memory and the history of its frame store
* `Custody.Reachable`: the states of all runs
* `Custody.Accounted`: the agreement of the store with its history
-/

namespace HighHalf

open Memory

/-- What an operation on the frame store came to. -/
inductive Outcome where
  /-- A frame was handed out. -/
  | granted (p : PhysAddr)
  /-- There was no frame to hand out. -/
  | unmet
  /-- Frames were parked. -/
  | parked (n : Nat)
  /-- A frame was given back. -/
  | returned (p : PhysAddr)
  /-- A frame was not taken back. -/
  | refused (cause : FrameError)
  /-- The holder of a frame wrote a byte of it. -/
  | written
deriving DecidableEq

namespace Outcome

/-- What came of a request for a frame. -/
def ofGrant : Option PhysAddr → Outcome
  | some p => .granted p
  | none => .unmet

/-- The frames that are handed out after some outcomes, of which the last comes first. -/
def held : List Outcome → List PhysAddr
  | [] => []
  | .granted p :: earlier => p :: held earlier
  | .returned p :: earlier => (held earlier).filter (· ≠ p)
  | _ :: earlier => held earlier

/-- The frame at `p` was handed out, and it did not come back since. -/
def Handed (p : PhysAddr) (os : List Outcome) : Prop :=
  ∃ later earlier, os = later ++ .granted p :: earlier ∧ .returned p ∉ later

variable {o : Outcome} {os : List Outcome} {p : PhysAddr}

theorem handed_cons : Handed p (o :: os) ↔ o = .granted p ∨ o ≠ .returned p ∧ Handed p os := by
  constructor
  · rintro ⟨later, earlier, hos, hlater⟩
    cases later with
    | nil =>
      rw [List.nil_append, List.cons.injEq] at hos
      exact Or.inl hos.1
    | cons o' later =>
      rw [List.cons_append, List.cons.injEq] at hos
      obtain ⟨rfl, hos⟩ := hos
      rw [List.mem_cons, not_or] at hlater
      exact Or.inr ⟨fun ho => hlater.1 ho.symm, later, earlier, hos, hlater.2⟩
  · rintro (rfl | ⟨hne, later, earlier, rfl, hlater⟩)
    · exact ⟨[], os, rfl, List.not_mem_nil⟩
    · refine ⟨o :: later, earlier, rfl, ?_⟩
      rw [List.mem_cons, not_or]
      exact ⟨fun ho => hne ho.symm, hlater⟩

theorem mem_held_cons : p ∈ held (o :: os) ↔ o = .granted p ∨ o ≠ .returned p ∧ p ∈ held os := by
  cases o with
  | granted q => simpa [held] using or_congr_left eq_comm
  | returned q => simpa [held] using and_comm.trans (and_congr_left' (not_congr eq_comm))
  | unmet => simp [held]
  | parked n => simp [held]
  | refused e => simp [held]
  | written => simp [held]

theorem mem_held_iff : p ∈ held os ↔ Handed p os := by
  induction os with
  | nil =>
    refine ⟨fun hp => absurd hp List.not_mem_nil, ?_⟩
    rintro ⟨later, earlier, hos, -⟩
    exact absurd hos (by simp)
  | cons o os ih => rw [mem_held_cons, handed_cons, ih]

/-- A frame that is not held was never handed out, or was given back since. -/
theorem returned_of_not_held (h : p ∉ held os) :
    .granted p ∉ os ∨ ∃ later earlier, os = later ++ .returned p :: earlier ∧
      .granted p ∉ later := by
  by_cases hmem : .granted p ∈ os
  · obtain ⟨later, earlier, hos, hlast⟩ := List.eq_append_cons_of_mem hmem
    -- It was handed out for the last time before `later`, so it came back in `later`.
    have hback : .returned p ∈ later := by
      by_contra hnot
      exact h (mem_held_iff.2 ⟨later, earlier, hos, hnot⟩)
    obtain ⟨after, before, rfl⟩ := List.append_of_mem hback
    refine Or.inr ⟨after, before ++ .granted p :: earlier, ?_, fun hin => ?_⟩
    · rw [hos, List.append_assoc, List.cons_append]
    · exact hlast (List.mem_append_left _ hin)
  · exact Or.inl hmem

end Outcome

/-- Memory, what the operations on its frame store came to, and the states before; of both lists
the last comes first. -/
structure Custody where
  memory : Memory
  outcomes : List Outcome
  past : List Memory

namespace Custody

/-- An operation of a run. -/
inductive Op where
  /-- Take a frame. -/
  | allocate
  /-- Take a frame for a table. -/
  | allocateTable
  /-- Park frames for tables. -/
  | park (n : Nat)
  /-- Give an address back. -/
  | release (p : PhysAddr)
  /-- Write byte `i` of a frame. -/
  | write (p : PhysAddr) (i : Nat) (v : UInt8)

/-- Carry an operation out. -/
def Op.run : Op → MemoryM Outcome
  | .allocate => return .ofGrant (← Memory.allocate)
  | .allocateTable => return .ofGrant (← Memory.allocateTable)
  | .park n => return .parked (← Memory.park n)
  | .release p => do
    match ← Memory.release p with
    | .ok _ => return .returned p
    | .error e => return .refused e
  | .write p i v => do
    Board.store (.byte ((← get).frames.window.reach (p.up i)) v)
    return .written

/-- The frames that are handed out. -/
def held (s : Custody) : List PhysAddr := Outcome.held s.outcomes

/-- Only who holds a frame writes it; for the rest anything may be asked. -/
def Allows (s : Custody) : Op → Prop
  | .write p i _ => p ∈ s.held ∧ i < 4096
  | .allocate | .allocateTable | .park _ | .release _ => True

/-- One operation more, whatever way it ended. -/
def step (s : Custody) (op : Op) : Custody :=
  match op.run s.memory with
  | .ok o m => ⟨m, o :: s.outcomes, s.memory :: s.past⟩
  | .error _ m => ⟨m, s.outcomes, s.memory :: s.past⟩

/-- The states of all runs from a new store over whole pages of RAM, set up around `image`. -/
inductive Reachable (image : PhysRange) : Custody → Prop where
  | start {board : Board} {region : PhysRange} {window : Window} {m : Memory} :
      Unset ⟨board, { region := region, window := window }⟩ →
      Memory.setup image ⟨board, { region := region, window := window }⟩ = .ok (.ok ()) m →
      Reachable image ⟨m, [], []⟩
  | step {s : Custody} {op : Op} : Reachable image s → s.Allows op → Reachable image (s.step op)

variable {image : PhysRange} {s : Custody} {op : Op} {o : Outcome} {m m' : Memory}
  {p q : PhysAddr} {held held' : List PhysAddr} {unmet : Nat} {earlier : List Nat}

theorem step_eq (s : Custody) (op : Op) (h : op.run s.memory = .ok o m) :
    s.step op = ⟨m, o :: s.outcomes, s.memory :: s.past⟩ := by
  rw [step, h]

/-- Where a table is given any free frame, it is the request for one. -/
theorem step_allocateTable (h : Memory.allocateTable s.memory = Memory.allocate s.memory) :
    s.step .allocateTable = s.step .allocate := by
  simp only [step, Op.run, run_bind, h]

/-! ## The largest count -/

/-- `k` is the largest of some counts. -/
def Highest (k : Nat) (cs : List Nat) : Prop := k ∈ cs ∧ ∀ c ∈ cs, c ≤ k

theorem Highest.keep {k c : Nat} {cs : List Nat} (h : Highest k cs) (hc : c ≤ k) :
    Highest k (c :: cs) :=
  ⟨List.mem_cons_of_mem c h.1, by simpa [hc] using h.2⟩

theorem Highest.again {k c : Nat} {cs : List Nat} (h : Highest k (c :: cs)) :
    Highest k (c :: c :: cs) :=
  h.keep (h.2 c List.mem_cons_self)

/-- The present count goes up by one. -/
theorem Highest.rise {k c : Nat} {cs : List Nat} (h : Highest k (c :: cs)) :
    Highest (max k (c + 1)) ((c + 1) :: cs) := by
  obtain ⟨hmem, hle⟩ := h
  constructor
  · by_cases hk : k ≤ c + 1
    · rw [Nat.max_eq_right hk]
      exact List.mem_cons_self
    · rw [Nat.max_eq_left (by omega)]
      rcases List.mem_cons.1 hmem with rfl | hmem
      · omega
      · exact List.mem_cons_of_mem _ hmem
  · intro c' hc'
    rcases List.mem_cons.1 hc' with rfl | hc'
    · exact Nat.le_max_right _ _
    · exact Nat.le_trans (hle c' (List.mem_cons_of_mem c hc')) (Nat.le_max_left _ _)

/-! ## What every operation keeps -/

/-- The range is whole pages, and the image lies in it below the bitmap. -/
structure Around (image : PhysRange) (m : Memory) : Prop where
  whole : m.frames.region.stop.num % 4096 = 0
  image_low : m.frames.region.start.num ≤ image.start.num
  image_high : image.stop.num ≤ m.frames.bitmap.num

theorem Around.congr (a : Around image m) (hplan : Frames.SamePlan m.frames m'.frames) :
    Around image m' where
  whole := by rw [hplan.region]; exact a.whole
  image_low := by rw [hplan.region]; exact a.image_low
  image_high := by rw [hplan.bitmap]; exact a.image_high

/-- The store agrees with what its callers know: the frames `held`, how many requests were `unmet`,
and how many frames were in use in `earlier` states. -/
structure Balanced (image : PhysRange) (m : Memory) (held : List PhysAddr) (unmet : Nat)
    (earlier : List Nat) : Prop where
  consistent : Consistent m
  around : Around image m
  owned : ∀ p, m.Owned p ↔ p ∈ held
  sum : m.frames.free + m.frames.stats.current + m.frames.reserved = m.frames.total
  counts : m.frames.stats.current + m.frames.stats.frees = m.frames.stats.allocations
  peak : Highest m.frames.stats.peak (m.frames.stats.current :: earlier)
  failed : m.frames.stats.failed = unmet

/-- The state is passed. -/
theorem Balanced.passed (b : Balanced image m held unmet earlier) :
    Balanced image m held unmet (m.frames.stats.current :: earlier) :=
  { b with peak := b.peak.again }

/-- A step that leaves all counters of the store alone. -/
theorem Balanced.still (b : Balanced image m held unmet earlier) (hc : Consistent m')
    (hplan : Frames.SamePlan m.frames m'.frames) (hfree : m'.frames.free = m.frames.free)
    (hstats : m'.frames.stats = m.frames.stats) (howned : ∀ p, m'.Owned p ↔ p ∈ held') :
    Balanced image m' held' unmet earlier where
  consistent := hc
  around := b.around.congr hplan
  owned := howned
  sum := by rw [hfree, hstats, hplan.reserved, hplan.total]; exact b.sum
  counts := by rw [hstats]; exact b.counts
  peak := by rw [hstats]; exact b.peak
  failed := by rw [hstats]; exact b.failed

theorem Balanced.noted (b : Balanced image m held unmet earlier) (l : Level) (c : Component)
    (text : String) : Balanced image (m.noted l c text) held unmet earlier := by
  have hkeeps := keeps_noted m l c text
  exact b.still (hkeeps.consistent b.consistent) hkeeps.plan rfl rfl
    fun p => hkeeps.owned_iff.trans (b.owned p)

theorem free_pos (h : Consistent m) (hp : m.frames.Manages p)
    (hfree : m.marked (m.frames.indexOf p) = false) : 0 < m.frames.free := by
  rw [h.free_eq, Finset.card_pos]
  exact ⟨_, mem_unmarked.2 ⟨(hp.index h.plan).2.1, hfree⟩⟩

/-- A frame that was free is in use. -/
theorem Balanced.rise (b : Balanced image m held unmet earlier) (hp : m.frames.Manages p)
    (hclear : m.marked (m.frames.indexOf p) = false) (hc : Consistent m')
    (hplan : Frames.SamePlan m.frames m'.frames) (hfree : m'.frames.free = m.frames.free - 1)
    (hstats : m'.frames.stats = (m.frames.counted p).stats)
    (howned : ∀ p, m'.Owned p ↔ p ∈ held') : Balanced image m' held' unmet earlier where
  consistent := hc
  around := b.around.congr hplan
  owned := howned
  sum := by
    have hsum := b.sum
    have hpos := free_pos b.consistent hp hclear
    rw [hstats, hplan.reserved, hplan.total]
    show m'.frames.free + (m.frames.stats.current + 1) + m.frames.reserved = m.frames.total
    omega
  counts := by
    have hcounts := b.counts
    rw [hstats]
    show m.frames.stats.current + 1 + m.frames.stats.frees = m.frames.stats.allocations + 1
    omega
  peak := by
    rw [hstats]
    exact b.peak.rise
  failed := by
    rw [hstats]
    exact b.failed

theorem Balanced.take (b : Balanced image m held unmet earlier) (t : Takes m m' p) :
    Balanced image m' (p :: held) unmet earlier := by
  refine b.rise t.managed t.unmarked t.consistent t.plan (by rw [t.frames]; rfl)
    (by rw [t.frames]; rfl) fun q => ?_
  rw [t.owned b.consistent, b.owned, List.mem_cons]

theorem Balanced.draw (b : Balanced image m held unmet earlier) (d : Draws m m' p) :
    Balanced image m' (p :: held) unmet earlier := by
  refine b.still d.consistent d.plan (by rw [d.frames]) (by rw [d.frames]) fun q => ?_
  rw [d.owned b.consistent, b.owned, List.mem_cons]

theorem Balanced.shelve (b : Balanced image m held unmet earlier) (t : Shelves m m' p) :
    Balanced image m' held unmet earlier := by
  refine b.rise t.managed t.unmarked t.consistent t.plan (by rw [t.frames]; rfl)
    (by rw [t.frames]; rfl) fun q => ?_
  rw [t.owned b.consistent, b.owned]

theorem Balanced.miss (b : Balanced image m held unmet earlier) (h : Misses m m') :
    Balanced image m' held (unmet + 1) earlier := by
  have hkeeps := h.keeps
  have hstats : m'.frames.stats = m.frames.shortOf.stats := by rw [h.frames]
  refine ⟨hkeeps.consistent b.consistent, b.around.congr hkeeps.plan,
    fun p => hkeeps.owned_iff.trans (b.owned p), ?_, ?_, ?_, ?_⟩
  · rw [hkeeps.free, hstats, hkeeps.plan.reserved, hkeeps.plan.total]
    exact b.sum
  · rw [hstats]
    exact b.counts
  · rw [hstats]
    exact b.peak
  · rw [hstats]
    exact congrArg (· + 1) b.failed

/-- Unmarked frames lie behind the reserved ones. -/
theorem card_unmarked_add_reserved_le (h : Usable m) :
    m.unmarked.card + m.frames.reserved ≤ m.frames.total := by
  have hsub : m.unmarked ⊆ Finset.Ico m.frames.reserved m.frames.total := by
    intro i hi
    obtain ⟨hlt, hclear⟩ := mem_unmarked.1 hi
    rw [Finset.mem_Ico]
    refine ⟨?_, hlt⟩
    by_contra hreserved
    rw [h.marked_reserved i (by omega)] at hclear
    cases hclear
  have hcard := Finset.card_le_card hsub
  rw [Nat.card_Ico] at hcard
  have := h.plan.reserved_le
  omega

theorem free_add_reserved_le (h : Consistent m) :
    m.frames.free + m.frames.reserved ≤ m.frames.total := by
  rw [h.free_eq]
  exact card_unmarked_add_reserved_le h.usable

/-- The frame that comes back was counted, so the count of frames in use does not stop at 0. -/
theorem Balanced.current_pos (b : Balanced image m held unmet earlier) (r : Releases m m' p) :
    0 < m.frames.stats.current := by
  have hle := free_add_reserved_le r.consistent
  have hfree : m'.frames.free = m.frames.free + 1 := by rw [r.frames]; rfl
  have hsum := b.sum
  rw [r.plan.reserved, r.plan.total] at hle
  omega

theorem Balanced.release (b : Balanced image m held unmet earlier) (r : Releases m m' p) :
    Balanced image m' (held.filter (· ≠ p)) unmet (m.frames.stats.current :: earlier) := by
  have hpos := b.current_pos r
  have hstats : m'.frames.stats = (m.frames.gotBack p).stats := by rw [r.frames]
  have hfree : m'.frames.free = m.frames.free + 1 := by rw [r.frames]; rfl
  refine ⟨r.consistent, b.around.congr r.plan, fun q => ?_, ?_, ?_, ?_, ?_⟩
  · rw [r.owned, b.owned, List.mem_filter, decide_eq_true_iff]
  · have hsum := b.sum
    rw [hstats, hfree, r.plan.reserved, r.plan.total]
    show m.frames.free + 1 + (m.frames.stats.current - 1) + m.frames.reserved = m.frames.total
    omega
  · have hcounts := b.counts
    rw [hstats]
    show m.frames.stats.current - 1 + (m.frames.stats.frees + 1) = m.frames.stats.allocations
    omega
  · have hle := b.peak.2 m.frames.stats.current List.mem_cons_self
    rw [hstats]
    exact b.peak.keep (Nat.le_trans (Nat.sub_le _ 1) hle)
  · rw [hstats]
    exact b.failed

/-! ## Whole runs -/

/-- The store agrees with the history of the run. -/
def Good (image : PhysRange) (s : Custody) : Prop :=
  Balanced image s.memory s.held (s.outcomes.count .unmet)
    (s.past.map fun m => m.frames.stats.current)

/-- The state that a run goes on from. -/
theorem Good.passed (h : s.Good image) :
    Balanced image s.memory s.held (s.outcomes.count .unmet)
      ((s.memory :: s.past).map fun m => m.frames.stats.current) :=
  Balanced.passed h

theorem Good.allocate (h : s.Good image) : (s.step .allocate).Good image := by
  have hpassed := h.passed
  rcases allocate_takes hpassed.consistent with ⟨m, hrun, hmiss⟩ | ⟨p, m, hrun, htakes, -⟩
  · rw [step_eq s .allocate (run_bind_ok hrun)]
    simpa [Good, Custody.held, Outcome.held, Outcome.ofGrant] using hpassed.miss hmiss
  · rw [step_eq s .allocate (run_bind_ok hrun)]
    simpa [Good, Custody.held, Outcome.held, Outcome.ofGrant] using hpassed.take htakes

theorem Good.allocateTable (h : s.Good image) : (s.step .allocateTable).Good image := by
  have hpassed := h.passed
  rcases allocateTable_draws hpassed.consistent with ⟨-, hrun⟩ | ⟨p, m, hrun, hdraws, -⟩
  · rw [step_allocateTable hrun]
    exact h.allocate
  · rw [step_eq s .allocateTable (run_bind_ok hrun)]
    simpa [Good, Custody.held, Outcome.held, Outcome.ofGrant] using hpassed.draw hdraws

theorem Good.park (h : s.Good image) (n : Nat) : (s.step (.park n)).Good image := by
  obtain ⟨k, m, hrun, hb⟩ := parkUpTo_keeps (fun m (hb : Balanced image m _ _ _) => hb.consistent)
    (fun m m' p hb => hb.shelve) (min n parkLimit) h.passed
  obtain ⟨l, text, hpark⟩ := run_park hrun
  rw [step_eq s (.park n) (run_bind_ok hpark)]
  simpa [Good, Custody.held, Outcome.held] using hb.noted l .frames text

theorem Good.release (h : s.Good image) (p : PhysAddr) : (s.step (.release p)).Good image := by
  rcases release_cases h.consistent h.around.whole p with
    ⟨e, m, hrun, hframes, hram, -⟩ | ⟨m, hrun, hrel, -⟩
  · have hkeeps : Keeps s.memory m := by
      refine ⟨hram, ?_, ?_, ?_, ?_⟩
      · rw [hframes]
        exact Frames.SamePlan.refl _
      all_goals rw [hframes]
    rw [step_eq s (.release p) (run_bind_ok hrun)]
    have hpassed := h.passed.still (hkeeps.consistent h.consistent) hkeeps.plan hkeeps.free
      (by rw [hframes]) fun q => hkeeps.owned_iff.trans (h.owned q)
    simpa [Good, Custody.held, Outcome.held] using hpassed
  · rw [step_eq s (.release p) (run_bind_ok hrun)]
    simpa [Good, Custody.held, Outcome.held] using Balanced.release h hrel

theorem Good.write {i : Nat} (h : s.Good image) (hp : p ∈ s.held) (hi : i < 4096) (v : UInt8) :
    (s.step (.write p i v)).Good image := by
  have hman := ((h.owned p).2 hp).managed
  have htouch := touches_write h.consistent.usable hman hi v
  rw [step_eq s (.write p i v) (m := s.memory.stored _) rfl]
  have hpassed := h.passed.still (htouch.consistent h.consistent hman) htouch.plan rfl rfl
    fun q => (htouch.owned h.consistent hman).trans (h.owned q)
  simpa [Good, Custody.held, Outcome.held] using hpassed

theorem Good.step (h : s.Good image) (hop : s.Allows op) : (s.step op).Good image := by
  cases op with
  | allocate => exact h.allocate
  | allocateTable => exact h.allocateTable
  | park n => exact h.park n
  | release p => exact h.release p
  | write p i v => exact h.write hop.1 hop.2 v

/-- After setting up nothing is handed out or counted. -/
theorem Good.start {board : Board} {region : PhysRange} {window : Window}
    (h : Unset ⟨board, { region := region, window := window }⟩)
    (hok : Memory.setup image ⟨board, { region := region, window := window }⟩ = .ok (.ok ()) m) :
    Good image ⟨m, [], []⟩ := by
  have hset := setup_spec h.blank hok
  have hstats : m.frames.stats = {} := stats_of_setup h.blank hok
  refine ⟨hset.consistent, ⟨?_, ?_, hset.image_high⟩, fun p => ?_, ?_, ?_, ?_, ?_⟩
  · rw [hset.region]
    exact h.stop_aligned
  · rw [hset.region]
    exact hset.image_low
  · exact ⟨fun hp => absurd hp (hset.not_owned p), fun hp => absurd hp List.not_mem_nil⟩
  · rw [hstats]
    exact hset.free
  · rw [hstats]
    rfl
  · rw [hstats]
    exact ⟨List.mem_cons_self, fun c hc => Nat.le_of_eq (List.mem_singleton.1 hc)⟩
  · rw [hstats]
    rfl

theorem Reachable.good (h : Reachable image s) : s.Good image := by
  induction h with
  | start hunset hok => exact Good.start hunset hok
  | step _ hop ih => exact ih.step hop

/-! ## The account -/

/-- Bitmap, count of free frames, counters and parked frames say what the history of the run says,
and what is refused changes nothing. -/
structure Accounted (s : Custody) : Prop where
  /-- A frame is marked if it is reserved, past the end, handed out or parked. -/
  marked : ∀ i, s.memory.marked i = true ↔ i < s.memory.frames.reserved ∨
    s.memory.frames.total ≤ i ∨ s.memory.frames.addrOf i ∈ s.held ∨
      s.memory.frames.addrOf i ∈ s.memory.frames.pool
  /-- The free frames are the ones that are not marked. -/
  free : s.memory.frames.free =
    ((Finset.range s.memory.frames.total).filter fun i => s.memory.marked i = false).card
  sum : s.memory.frames.free + s.memory.frames.stats.current + s.memory.frames.reserved =
    s.memory.frames.total
  counts : s.memory.frames.stats.current + s.memory.frames.stats.frees =
    s.memory.frames.stats.allocations
  /-- The peak was reached, and never passed. -/
  peak : (∃ m ∈ s.memory :: s.past, m.frames.stats.current = s.memory.frames.stats.peak) ∧
    ∀ m ∈ s.memory :: s.past, m.frames.stats.current ≤ s.memory.frames.stats.peak
  failed : s.memory.frames.stats.failed = s.outcomes.count .unmet
  pool_window : s.memory.frames.drawn ≤ s.memory.frames.parked.size ∧
    s.memory.frames.parked.size ≤ 128
  pool_nodup : s.memory.frames.pool.Nodup
  pool_frames : ∀ p ∈ s.memory.frames.pool, ∃ i, s.memory.frames.reserved ≤ i ∧
    i < s.memory.frames.total ∧ p = s.memory.frames.addrOf i ∧ s.memory.marked i = true
  /-- A refused frame leaves the store and RAM, and with it the bitmap, as they are. -/
  refused : ∀ p e m, Memory.release p s.memory = .ok (.error e) m →
    m.frames = s.memory.frames ∧ m.board.ram = s.memory.board.ram
  /-- A frame that is taken back was counted. -/
  returned : ∀ p m, Memory.release p s.memory = .ok (.ok ()) m →
    m.frames.stats.current + 1 = s.memory.frames.stats.current

theorem Good.marked (h : s.Good image) (i : Nat) :
    s.memory.marked i = true ↔ i < s.memory.frames.reserved ∨ s.memory.frames.total ≤ i ∨
      s.memory.frames.addrOf i ∈ s.held ∨ s.memory.frames.addrOf i ∈ s.memory.frames.pool := by
  have hc := h.consistent
  have hindex : i < s.memory.frames.total →
      s.memory.frames.indexOf (s.memory.frames.addrOf i) = i :=
    fun hi => Frames.indexOf_addrOf hc.plan (Nat.le_of_lt hi)
  constructor
  · intro hmark
    by_cases hlow : i < s.memory.frames.reserved
    · exact Or.inl hlow
    · by_cases hhigh : s.memory.frames.total ≤ i
      · exact Or.inr (Or.inl hhigh)
      · -- A managed frame that is marked is parked or has an owner.
        have hman := Frames.manages_addrOf hc.plan (Nat.not_lt.1 hlow) (Nat.not_le.1 hhigh)
        by_cases hpark : s.memory.frames.addrOf i ∈ s.memory.frames.pool
        · exact Or.inr (Or.inr (Or.inr hpark))
        · refine Or.inr (Or.inr (Or.inl ((h.owned _).1 ⟨hman, ?_, hpark⟩)))
          rw [hindex (by omega)]
          exact hmark
  · rintro (hlow | hhigh | hheld | hpark)
    · exact hc.marked_reserved i hlow
    · exact hc.marked_past i hhigh
    · by_cases hi : i < s.memory.frames.total
      · have hmark := ((h.owned _).2 hheld).marked
        rwa [hindex hi] at hmark
      · exact hc.marked_past i (Nat.not_lt.1 hi)
    · by_cases hi : i < s.memory.frames.total
      · have hmark := hc.pool_marked _ hpark
        rwa [hindex hi] at hmark
      · exact hc.marked_past i (Nat.not_lt.1 hi)

theorem Good.toAccounted (h : s.Good image) : s.Accounted where
  marked := h.marked
  free := h.consistent.free_eq
  sum := h.sum
  counts := h.counts
  peak := by
    obtain ⟨hmem, hle⟩ := h.peak
    constructor
    · rcases List.mem_cons.1 hmem with hnow | hpast
      · exact ⟨s.memory, List.mem_cons_self, hnow.symm⟩
      · obtain ⟨m, hm, hcurrent⟩ := List.mem_map.1 hpast
        exact ⟨m, List.mem_cons_of_mem _ hm, hcurrent⟩
    · intro m hm
      rcases List.mem_cons.1 hm with rfl | hm
      · exact hle _ List.mem_cons_self
      · exact hle _ (List.mem_cons_of_mem _ (List.mem_map.2 ⟨m, hm, rfl⟩))
  failed := h.failed
  pool_window := ⟨h.consistent.drawn_le, h.consistent.parked_le⟩
  pool_nodup := h.consistent.pool_nodup
  pool_frames := by
    intro p hp
    obtain ⟨hlow, hhigh, haddr⟩ := (h.consistent.pool_managed p hp).index h.consistent.plan
    exact ⟨_, hlow, hhigh, haddr.symm, h.consistent.pool_marked p hp⟩
  refused := by
    intro p e m hrun
    rcases release_cases h.consistent h.around.whole p with
      ⟨e', m', hrun', hframes, hram, -⟩ | ⟨m', hrun', -⟩
    · rw [hrun'] at hrun
      cases hrun
      exact ⟨hframes, hram⟩
    · rw [hrun'] at hrun
      cases hrun
  returned := by
    intro p m hrun
    rcases release_cases h.consistent h.around.whole p with
      ⟨e', m', hrun', -⟩ | ⟨m', hrun', hrel, -⟩
    · rw [hrun'] at hrun
      cases hrun
    · rw [hrun'] at hrun
      cases hrun
      have hpos := h.current_pos hrel
      rw [hrel.frames]
      exact Nat.sub_add_cancel hpos

/-- In every state of every run the store agrees with the history of the run. -/
theorem Reachable.accounted (h : Reachable image s) : s.Accounted := h.good.toAccounted

/-- A frame of the small store is taken, given back, and given back once more. -/
theorem Reachable.accounted_sample :
    ∃ m p e s, Memory.setup sampleImage sample = .ok (.ok ()) m ∧
      s = (((Custody.mk m [] []).step .allocate).step (.release p)).step (.release p) ∧
      s.outcomes = [.refused e, .returned p, .granted p] ∧ Reachable sampleImage s ∧
      s.Accounted ∧ s.memory.frames.free = 59 ∧ s.memory.frames.stats.peak = 1 := by
  obtain ⟨m, hsetup, hset, hfree, -, -⟩ := setUp_sample
  have hstats : m.frames.stats = {} := stats_of_setup unset_sample.blank hsetup
  have hr₀ : Reachable sampleImage ⟨m, [], []⟩ := Reachable.start unset_sample hsetup
  rcases allocate_takes hset.consistent with ⟨m₁, -, hmiss⟩ | ⟨p, m₁, hrun₁, htakes, -⟩
  · have hnone := hmiss.none_free
    omega
  · have hs₁ : (Custody.mk m [] []).step .allocate = ⟨m₁, [.granted p], [m]⟩ :=
      step_eq _ .allocate (run_bind_ok hrun₁)
    have hr₁ : Reachable sampleImage ⟨m₁, [.granted p], [m]⟩ := by
      rw [← hs₁]
      exact hr₀.step trivial
    have hown : m₁.Owned p := (htakes.owned hset.consistent).2 (Or.inl rfl)
    rcases release_cases hr₁.good.consistent hr₁.good.around.whole p with
      ⟨-, -, -, -, -, hnot⟩ | ⟨m₂, hrun₂, hrel, -⟩
    · exact absurd hown hnot
    · have hs₂ : (Custody.mk m₁ [.granted p] [m]).step (.release p) =
          ⟨m₂, [.returned p, .granted p], [m₁, m]⟩ :=
        step_eq _ (.release p) (run_bind_ok hrun₂)
      have hr₂ : Reachable sampleImage ⟨m₂, [.returned p, .granted p], [m₁, m]⟩ := by
        rw [← hs₂]
        exact hr₁.step trivial
      rcases release_cases hr₂.good.consistent hr₂.good.around.whole p with
        ⟨e, m₃, hrun₃, hframes, -, -⟩ | ⟨m₃, -, -, hown₂⟩
      · have hs₃ : (Custody.mk m₂ [.returned p, .granted p] [m₁, m]).step (.release p) =
            ⟨m₃, [.refused e, .returned p, .granted p], [m₂, m₁, m]⟩ :=
          step_eq _ (.release p) (run_bind_ok hrun₃)
        have hr₃ : Reachable sampleImage
            ⟨m₃, [.refused e, .returned p, .granted p], [m₂, m₁, m]⟩ := by
          rw [← hs₃]
          exact hr₂.step trivial
        have hlast : m₃.frames = Frames.gotBack
            (Frames.counted { m.frames with free := m.frames.free - 1 } p) p := by
          rw [← htakes.frames, ← hrel.frames]
          exact hframes
        refine ⟨m, p, e, _, hsetup, by rw [hs₁, hs₂, hs₃], rfl, hr₃, hr₃.accounted, ?_, ?_⟩
        · show m₃.frames.free = 59
          rw [hlast]
          show m.frames.free - 1 + 1 = 59
          omega
        · show m₃.frames.stats.peak = 1
          rw [hlast]
          show max m.frames.stats.peak (m.frames.stats.current + 1) = 1
          rw [hstats]
          rfl
      · exact absurd rfl ((hrel.owned p).1 hown₂).2

end Custody

end HighHalf
