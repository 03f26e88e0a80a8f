import HighHalf.Proofs.Window.Mapper

/-!
# Runs in which the window is shifted

The window of the frame store may be shifted at any moment, as long as RAM is found where it leads
to. Nothing that the frame store or the mapper remembers hangs on the window, and every place in RAM
is computed anew from the window in force. So a run in which the window is shifted now and then is
the run without the shifts: every operation answers the same and leaves the same frame store and the
same RAM, and what it did to the board is the same as well, except that places in RAM are as much
higher as the window is at that moment.

## Main results

* `Memory.Act.alike`: an operation through two windows
* `Memory.stages_without_shifts`: a run with shifts of the window, next to the run without them
-/

namespace HighHalf

namespace Memory

/-! ## Operations and runs -/

/-- An operation of the frame store or of the mapper, or a shift of the window. -/
inductive Act where
  | setup (image : PhysRange)
  | allocate
  | release (p : PhysAddr)
  | park (n : Nat)
  | allocateTable
  | isUsed (p : PhysAddr)
  | summarize
  | makeLeafTable (root : PhysAddr) (v : VirtAddr)
  /-- Map a page through the window in force. -/
  | mapPage (table : PhysAddr) (v : VirtAddr) (p : PhysAddr) (f : Flags)
  | mapRange (root : PhysAddr) (start stop : VirtAddr) (p : PhysAddr) (f : Flags)
  /-- Unmap a page through the window in force. -/
  | unmapPage (root : PhysAddr) (v : VirtAddr)
  | lookup (root : PhysAddr) (v : VirtAddr)
  | resolve (root : PhysAddr) (v : VirtAddr)
  /-- Shift the window by `d`. -/
  | shift (d : Word)

/-- What an operation answers. -/
inductive Answer where
  | none
  | frame (p : Option PhysAddr)
  | number (n : Nat)
  | truth (b : Bool)
  | returned (r : Except FrameError Unit)
  | table (r : Except MapError PhysAddr)
  | mapped (r : Except MapError Nat)
  | written (r : Except MapError Unit)
  | removed (r : Except MapError Entry)
  | leaf (e : Entry)
  | place (p : Option PhysAddr)

namespace Act

/-- Carry an operation out. -/
def run : Act → MemoryM Answer
  | setup image => return .returned (← Memory.setup image)
  | allocate => return .frame (← Memory.allocate)
  | release p => return .returned (← Memory.release p)
  | park n => return .number (← Memory.park n)
  | allocateTable => return .frame (← Memory.allocateTable)
  | isUsed p => return .truth ((← get).isUsed p)
  | summarize => do
    Memory.summarize
    return .none
  | makeLeafTable root v => return .table (← (Tables.makeLeafTable root v).run)
  | mapPage table v p f => do
    let w := (← get).frames.window
    return .written (← (Memory.request (Tables.mapPage w table v p f)).run)
  | mapRange root start stop p f => return .mapped (← (Tables.mapRange root start stop p f).run)
  | unmapPage root v => do
    let w := (← get).frames.window
    return .removed (← (Memory.request (Tables.unmapPage w root v)).run)
  | lookup root v => return .leaf ((← get).lookup root v)
  | resolve root v => do
    let m ← get
    return .place (Tables.resolve m.board.ram m.frames.window root v)
  | shift d => do
    Memory.shiftWindow d
    return .none

/-- The tables that an operation starts from. -/
def tables : Act → List PhysAddr
  | makeLeafTable root _ | mapRange root .. | unmapPage root _ | lookup root _ | resolve root _ =>
    [root]
  | mapPage table .. => [table]
  | setup _ | allocate | release _ | park _ | allocateTable | isUsed _ | summarize | shift _ => []

/-- Whether the window is shifted. -/
def isShift : Act → Bool
  | shift _ => true
  | _ => false

end Act

/-- One operation of a run: what it was, where it began, what it answered unless it stopped for
good, and what it left. -/
structure Stage where
  act : Act
  before : Memory
  answer : Except Fatal Answer
  after : Memory

/-- The operations of a run, one after the other. If one stops for good, it is the last. -/
def stages (m : Memory) : List Act → List Stage
  | [] => []
  | a :: acts =>
    match a.run m with
    | .ok r n => ⟨a, m, .ok r, n⟩ :: stages n acts
    | .error e n => [⟨a, m, .error e, n⟩]

/-- The frames in an answer that may hold tables from now on. -/
def Answer.handed : Answer → List PhysAddr
  | frame p => p.toList
  | table r => r.toOption.toList
  | none | number _ | truth _ | returned _ | mapped _ | written _ | removed _ | leaf _
  | place _ => []

/-- What a caller may ask for from `m` on, after the frames in `N` were handed out: tables are
frames that were handed out before, and the window is only shifted to where it shows RAM. -/
def Legal (N : List PhysAddr) (m : Memory) : List Act → Prop
  | [] => True
  | a :: acts =>
    (∀ t ∈ a.tables, t ∈ N) ∧
      (∀ d, a = .shift d → m.board.ram.Shows (m.frames.window.shifted d)) ∧
      ∀ r n, a.run m = .ok r n → Legal (r.handed ++ N) n acts

/-- The run without the shifts. -/
def unshifted (acts : List Act) : List Act := acts.filter (!·.isShift)

/-- The same operation with the same answer. Afterwards frame store, RAM, processor and console are
the same but for the window, and what was appended to the trace differs by how far the windows are
apart. -/
structure Stage.Same (s s' : Stage) : Prop where
  act : s'.act = s.act
  answer : s'.answer = s.answer
  follows : Follows s.before s'.before s.after s'.after

/-- Nothing but the window is another one, higher by as much as was asked, and there is a line more
in the log. -/
structure Stage.Shifts (s : Stage) : Prop where
  answer : s.answer = .ok .none
  frames : ∀ d, s.act = .shift d →
    s.after.frames = s.before.frames.through (s.before.frames.window.shifted d)
  ram : s.after.board.ram = s.before.board.ram
  cpu : s.after.board.cpu = s.before.board.cpu
  console : s.after.board.console = s.before.board.console
  trace : s.after.board.trace = s.before.board.trace

variable {o o' m m' n n' : Memory} {p root : PhysAddr} {N : List PhysAddr} {a : Act}
  {acts : List Act} {image : PhysRange} {i k : Nat}

/-! ## What holds between the operations -/

theorem Poised.keeps (h : Poised m) (k : Keeps m m') : Poised m' where
  ready := k.plan.ready.trans h.ready
  parked := k.parked.trans h.parked
  drawn := k.drawn.trans h.drawn
  start_aligned := by rw [k.plan.region]; exact h.start_aligned
  shows := by rw [k.ram, k.plan.window]; exact h.shows
  inside := by rw [k.ram, k.plan.region]; exact h.inside

/-- The store has not been set up, and no frame was handed out; or it is usable, and the frames that
were handed out are tidy. Descriptors have room for the addresses of its frames. -/
inductive Sheltered (N : List PhysAddr) (m : Memory) : Prop where
  | poised : Poised m → m.frames.region.stop.num ≤ 2 ^ 48 → N = [] → Sheltered N m
  | kept : Kept N m → Sheltered N m

namespace Sheltered

theorem housed (h : Sheltered N m) : Housed m := by
  cases h with
  | poised h _ _ => exact .poised h
  | kept h => exact .usable h.usable

theorem of_mem (h : Sheltered N m) (hp : p ∈ N) : Kept N m := by
  cases h with
  | poised _ _ hN =>
    rw [hN] at hp
    cases hp
  | kept h => exact h

theorem keeps (h : Sheltered N m) (k : Keeps m m') : Sheltered N m' := by
  cases h with
  | poised h hnarrow hN => exact .poised (h.keeps k) (by rw [k.plan.region]; exact hnarrow) hN
  | kept h => exact .kept (h.keeps k)

theorem allocate {r : Option PhysAddr} (h : Sheltered N m)
    (hrun : Memory.allocate m = .ok r m') : Sheltered (r.toList ++ N) m' := by
  cases h with
  | poised h hnarrow hN =>
    obtain ⟨text, hnone⟩ := run_allocate_none (claim_of_unready h.ready)
    cases hrun.symm.trans hnone
    exact (Sheltered.poised h hnarrow hN).keeps
      ⟨rfl, ⟨rfl, rfl, rfl, rfl, rfl, rfl, rfl⟩, rfl, rfl, rfl⟩
  | kept h => exact .kept (h.allocate hrun)

theorem allocateTable {r : Option PhysAddr} (h : Sheltered N m)
    (hrun : Memory.allocateTable m = .ok r m') : Sheltered (r.toList ++ N) m' := by
  cases h with
  | poised hm hnarrow hN =>
    have hnone : m.frames.parked[m.frames.drawn]? = none := by
      rw [hm.parked]
      rfl
    rw [run_allocateTable_empty hnone] at hrun
    exact (Sheltered.poised hm hnarrow hN).allocate hrun
  | kept h => exact .kept (h.allocateTable hrun)

theorem park (h : Sheltered N m) (hrun : Memory.park i m = .ok k m') : Sheltered N m' := by
  cases h with
  | poised hm hnarrow hN =>
    have hnone := run_parkUpTo_none (claim_of_unready hm.ready) (min i parkLimit)
    obtain ⟨l, text, hrun'⟩ := run_park hnone
    cases hrun.symm.trans hrun'
    exact (Sheltered.poised hm hnarrow hN).keeps (keeps_noted ..)
  | kept h => exact .kept (h.park hrun)

theorem release {r : Except FrameError Unit} (h : Sheltered N m)
    (hrun : Memory.release p m = .ok r m') : Sheltered N m' := by
  cases h with
  | poised hm hnarrow hN =>
    have hrefusal : m.refusal p = some .notReady := by
      rw [refusal, hm.ready]
      rfl
    cases hrun.symm.trans (run_release_refused hrefusal)
    exact (Sheltered.poised hm hnarrow hN).keeps (keeps_noted ..)
  | kept h => exact .kept (h.release hrun)

theorem setup {r : Except FrameError Unit} (h : Sheltered N m)
    (hrun : Memory.setup image m = .ok r m') : Sheltered N m' := by
  cases h with
  | poised hm hnarrow hN =>
    have hblank : Enclosed m.frames.region image → Blank m := hm.blank
    rcases setup_cases_of_blank hm.ready hblank with
      ⟨e, m₁, hrun₁, hframes, hram⟩ | hstop | ⟨m₁, hrun₁, hset⟩
    · cases hrun.symm.trans hrun₁
      refine (Sheltered.poised hm hnarrow hN).keeps ⟨hram, ?_, ?_, ?_, ?_⟩
      · rw [hframes]
        exact Frames.SamePlan.refl _
      all_goals rw [hframes]
    · cases hrun.symm.trans hstop
    · cases hrun.symm.trans hrun₁
      refine .kept ⟨hset.consistent.usable, by rw [hset.region]; exact hnarrow, ?_⟩
      rw [hN]
      exact nofun
  | kept h =>
    cases hrun.symm.trans (run_setup_again h.usable.plan.ready image)
    exact .kept h

end Sheltered

/-! ## One operation through two windows -/

/-- An operation answers the same through both windows, and what it leaves is fit for the next. -/
theorem Act.alike (h : Follows o o' m m') (hs : Sheltered N m) (hnamed : ∀ t ∈ a.tables, t ∈ N)
    (hplain : a.isShift = false) :
    Alike o o' (fun r n => Sheltered (r.handed ++ N) n) (a.run m) (a.run m') := by
  cases a with
  | setup image =>
    exact ((alike_setup h hs.housed image).mono fun _ _ hrun _ => hs.setup hrun).bind
      fun _ _ _ hn hs' => .ok hn hs'
  | allocate =>
    exact ((alike_allocate h hs.housed).mono fun _ _ hrun _ => hs.allocate hrun).bind
      fun _ _ _ hn hs' => .ok hn hs'
  | release p =>
    exact ((alike_release h hs.housed p).mono fun _ _ hrun _ => hs.release hrun).bind
      fun _ _ _ hn hs' => .ok hn hs'
  | park k =>
    exact ((alike_park h hs.housed k).mono fun _ _ hrun _ => hs.park hrun).bind
      fun _ _ _ hn hs' => .ok hn hs'
  | allocateTable =>
    exact ((alike_allocateTable h hs.housed).mono fun _ _ hrun _ => hs.allocateTable hrun).bind
      fun _ _ _ hn hs' => .ok hn hs'
  | isUsed p =>
    have hused := h.isUsed hs.housed.bitmapInside p
    rw [Act.run, run_bind_ok (run_get m), run_bind_ok (run_get m'), hused]
    exact .ok h hs
  | summarize =>
    exact (alike_summarize h hs.housed).bind fun _ _ _ hn hkeeps => .ok hn (hs.keeps hkeeps)
  | makeLeafTable root v =>
    have hroot := hnamed root List.mem_cons_self
    exact (alike_makeLeafTable v h (hs.of_mem hroot) hroot).bind
      fun _ _ _ hn hk => .ok hn (.kept hk)
  | mapPage t v p f =>
    have ht := hnamed t List.mem_cons_self
    rw [Act.run, run_bind_ok (run_get m), run_bind_ok (run_get m')]
    exact (alike_mapPage v p f h (hs.of_mem ht) ht).bind fun _ _ _ hn hk => .ok hn (.kept hk)
  | mapRange root start stop p f =>
    have hroot := hnamed root List.mem_cons_self
    exact (alike_mapRange start stop p f h (hs.of_mem hroot) hroot).bind
      fun _ _ _ hn hk => .ok hn (.kept hk)
  | unmapPage root v =>
    have hroot := hnamed root List.mem_cons_self
    rw [Act.run, run_bind_ok (run_get m), run_bind_ok (run_get m')]
    exact (alike_unmapPage v h (hs.of_mem hroot) hroot).bind fun _ _ _ hn hk => .ok hn (.kept hk)
  | lookup root v =>
    have hroot := hnamed root List.mem_cons_self
    have hk := hs.of_mem hroot
    rw [Act.run, run_bind_ok (run_get m), run_bind_ok (run_get m'),
      h.lookup hk.usable (hk.tidy root hroot) v]
    exact .ok h hs
  | resolve root v =>
    have hroot := hnamed root List.mem_cons_self
    have hk := hs.of_mem hroot
    rw [Act.run, run_bind_ok (run_get m), run_bind_ok (run_get m'),
      h.resolve hk.usable (hk.tidy root hroot) v]
    exact .ok h hs
  | shift d => cases hplain

/-! ## Whole runs -/

/-- The store after the window was shifted. -/
def shifted (m : Memory) (d : Word) : Memory :=
  { m with frames := m.frames.through (m.frames.window.shifted d) }

theorem run_shift (d : Word) (m : Memory) : (Act.shift d).run m = .ok .none
    ((m.shifted d).noted .debug .frames
      s!"physical window now {(m.frames.window.shifted d).debug}") := rfl

/-- Shifting the window leads to another twin. -/
theorem Twin.shift (h : Twin m m') {d : Word} {n' : Memory}
    (hd : m'.board.ram.Shows (m'.frames.window.shifted d))
    (hrun : (Act.shift d).run m' = .ok .none n') : Twin m n' := by
  cases hrun.symm.trans (run_shift d m')
  refine ⟨?_, h.ram, h.cpu, h.console, h.shows, ?_⟩
  · show m'.frames.through (m'.frames.window.shifted d) =
      m.frames.through (m'.frames.window.shifted d)
    rw [h.frames]
    rfl
  · rw [h.ram] at hd
    exact hd

theorem shifts_of_shift {d : Word} (m : Memory) : ∃ n, (Act.shift d).run m = .ok .none n ∧
    Stage.Shifts ⟨.shift d, m, .ok .none, n⟩ := by
  refine ⟨_, run_shift d m, rfl, fun e he => ?_, rfl, rfl, rfl, rfl⟩
  cases he
  rfl

theorem legal_cons {r : Answer} (hrun : a.run m = .ok r n) (hnamed : ∀ t ∈ a.tables, t ∈ N)
    (hwindow : ∀ d, a = .shift d → m.board.ram.Shows (m.frames.window.shifted d))
    (hrest : Legal (r.handed ++ N) n acts) : Legal N m (a :: acts) := by
  refine ⟨hnamed, hwindow, fun r' n' hrun' => ?_⟩
  cases hrun.symm.trans hrun'
  exact hrest

theorem stages_of_ok {r : Answer} (hrun : a.run m = .ok r n) :
    stages m (a :: acts) = ⟨a, m, .ok r, n⟩ :: stages n acts := by
  rw [stages, hrun]

theorem stages_of_error {e : Fatal} (hrun : a.run m = .error e n) :
    stages m (a :: acts) = [⟨a, m, .error e, n⟩] := by
  rw [stages, hrun]

/-- From twins the run without the shifts goes along with the other one. -/
theorem Twin.stages (h : Twin m m') (hs : Sheltered N m) (hlegal : Legal N m' acts) :
    List.Forall₂ Stage.Same (Memory.stages m (unshifted acts))
        ((Memory.stages m' acts).filter fun s => !s.act.isShift) ∧
      ∀ s ∈ Memory.stages m' acts, s.act.isShift = true → s.Shifts := by
  induction acts generalizing m m' N with
  | nil => exact ⟨.nil, fun s hs => absurd hs List.not_mem_nil⟩
  | cons a acts ih =>
    obtain ⟨hnamed, hwindow, hrest⟩ := hlegal
    cases hplain : a.isShift with
    | true =>
      obtain ⟨d, rfl⟩ : ∃ d, a = .shift d := by
        cases a <;> first | exact ⟨_, rfl⟩ | cases hplain
      obtain ⟨n', hrun, hshifts⟩ := shifts_of_shift (d := d) m'
      obtain ⟨hsame, hall⟩ := ih (h.shift (hwindow d rfl) hrun) hs (hrest _ _ hrun)
      rw [stages_of_ok hrun]
      refine ⟨hsame, fun s hs hshift => ?_⟩
      rcases List.mem_cons.1 hs with rfl | hs
      · exact hshifts
      · exact hall s hs hshift
    | false =>
      have hunshifted : unshifted (a :: acts) = a :: unshifted acts :=
        List.filter_cons_of_pos (by rw [hplain]; rfl)
      have hfilter : ∀ r n' ss, (Stage.mk a m' r n' :: ss).filter (fun s => !s.act.isShift) =
          ⟨a, m', r, n'⟩ :: ss.filter fun s => !s.act.isShift :=
        fun _ _ _ => List.filter_cons_of_pos (by rw [hplain]; rfl)
      have halike := a.alike h.follows hs hnamed hplain
      rw [hunshifted]
      generalize hrun : a.run m = x at halike
      generalize hrun' : a.run m' = y at halike
      cases halike with
      | @ok r n n' hn hs' =>
        obtain ⟨hsame, hall⟩ := ih hn.toTwin hs' (hrest _ _ hrun')
        rw [stages_of_ok hrun, stages_of_ok hrun', hfilter]
        refine ⟨.cons ⟨rfl, rfl, hn⟩ hsame, List.forall_mem_cons.2 ⟨fun hshift => ?_, hall⟩⟩
        cases hplain.symm.trans hshift
      | @stop e n n' hn =>
        rw [stages_of_error hrun, stages_of_error hrun', hfilter]
        refine ⟨.cons ⟨rfl, rfl, hn⟩ .nil, List.forall_mem_cons.2 ⟨fun hshift => ?_, ?_⟩⟩
        · cases hplain.symm.trans hshift
        · exact fun s hs => absurd hs List.not_mem_nil

/-- A run from a store that has not been set up, over a range that begins with a page and for whose
addresses descriptors have room. Wherever in it the window is shifted to where RAM is shown too, the
run goes on as the one without the shifts: every operation answers the same, leaves the same frame
store and the same RAM, and appends the same events and the same lines to the log, with the places
in RAM as much higher as the window in force is. The shifts themselves change the window alone. -/
theorem stages_without_shifts (h : Poised m) (hnarrow : m.frames.region.stop.num ≤ 2 ^ 48)
    (hlegal : Legal [] m acts) :
    List.Forall₂ Stage.Same (stages m (unshifted acts))
        ((stages m acts).filter fun s => !s.act.isShift) ∧
      ∀ s ∈ stages m acts, s.act.isShift = true → s.Shifts :=
  (Twin.refl h.shows).stages (.poised h hnarrow rfl) hlegal

/-- The small store, with its RAM reached at a second place. -/
def doubled : Memory where
  board := .fresh (.zeroed ⟨0x40000000⟩ 64 0x40000000 0x100000000000) sample.board.cpu
    sample.board.console
  frames := sample.frames

theorem size_doubled : doubled.board.ram.size = 4096 * 64 := size_zeroBytes _

theorem poised_doubled : Poised doubled := by
  refine ⟨rfl, rfl, rfl, rfl, ?_, fun _ => ?_⟩
  · have hw : doubled.board.ram.Shows doubled.board.ram.window :=
      Ram.shows_window (by rw [size_doubled]; decide)
    exact hw
  · rw [Ram.Has, size_doubled]
    decide

theorem upper_doubled : doubled.board.ram.Shows (doubled.frames.window.shifted 0x100000000000) := by
  have hw : doubled.board.ram.Shows (doubled.board.ram.window.shifted doubled.board.ram.gap) :=
    Ram.shows_upper (by rw [size_doubled]; decide) (by rw [size_doubled]; decide)
      (by rw [size_doubled]; decide)
  exact hw

/-- The small store is set up and a root is taken; then two pages are mapped below it through the
second place of RAM. -/
def doubledActs (root : PhysAddr) : List Act :=
  [.setup sampleImage, .allocateTable, .shift 0x100000000000,
    .mapRange root ⟨0x1FF000⟩ ⟨0x201000⟩ ⟨0x40010000⟩ .data, .lookup root ⟨0x200000⟩]

theorem stages_without_shifts_sample :
    ∃ root, Poised doubled ∧ doubled.frames.region.stop.num ≤ 2 ^ 48 ∧
      Legal [] doubled (doubledActs root) ∧
      (∃ s ∈ stages doubled (unshifted (doubledActs root)), s.answer = .ok (.mapped (.ok 2))) ∧
      List.Forall₂ Stage.Same (stages doubled (unshifted (doubledActs root)))
        ((stages doubled (doubledActs root)).filter fun s => !s.act.isShift) ∧
      ∀ s ∈ stages doubled (doubledActs root), s.act.isShift = true → s.Shifts := by
  have hblank : Blank doubled :=
    ⟨rfl, rfl, rfl, rfl, poised_doubled.shows, poised_doubled.inside (by decide)⟩
  obtain ⟨m₀, hsetup, hset, -, hsupply, htop⟩ := setUp_small hblank rfl
  have hsound₀ := Tables.sound_of_setUp hset (by rw [htop]; decide)
  rcases Tables.newRoot_spec hsound₀ with
    ⟨-, -, -, -, hzero⟩ | ⟨root, m₁, halloc, hsound, hgrows, -, -, -, hsupply₁⟩
  · omega
  · have hroot : root ∈ [root] := List.mem_singleton.2 rfl
    have hask : Tables.Proper ⟨0x1FF000⟩ ⟨0x201000⟩ ⟨0x40010000⟩ .data :=
      ⟨by decide, by decide, by decide, by decide, by decide, by decide⟩
    have hpages : Tables.pagesBetween ⟨0x1FF000⟩ ⟨0x201000⟩ = 2 := by decide
    have hfew := Tables.tablesFor_le ⟨0x1FF000⟩ 2
    obtain ⟨m₂, hmap⟩ := Tables.mapRange_succeeds hsound hroot hask (by rw [hpages]; decide)
      (by rw [hpages]; omega)
    rw [hpages] at hmap
    have hrun₀ : (Act.setup sampleImage).run doubled = .ok (.returned (.ok ())) m₀ :=
      run_bind_ok hsetup
    have hrun₁ : Act.allocateTable.run m₀ = .ok (.frame (some root)) m₁ := run_bind_ok halloc
    have hrun₂ : (Act.mapRange root ⟨0x1FF000⟩ ⟨0x201000⟩ ⟨0x40010000⟩ .data).run m₁ =
      .ok (.mapped (.ok 2)) m₂ := run_bind_ok hmap
    have hupper : m₁.board.ram.Shows (m₁.frames.window.shifted 0x100000000000) := by
      rw [hgrows.plan.window, hset.window]
      exact hgrows.bank.shows (hset.bank.shows upper_doubled)
    have hlegal : Legal [] doubled (doubledActs root) := by
      refine legal_cons hrun₀ nofun nofun (legal_cons hrun₁ nofun nofun
        (legal_cons (run_shift _ m₁) nofun ?_ ⟨?_, nofun, fun r n _ => ⟨?_, nofun, ?_⟩⟩))
      · rintro d ⟨⟩
        exact hupper
      · exact fun t ht => ht
      · exact fun t ht => List.mem_append_right _ ht
      · exact fun _ _ _ => trivial
    have hplain : unshifted (doubledActs root) = [.setup sampleImage, .allocateTable,
      .mapRange root ⟨0x1FF000⟩ ⟨0x201000⟩ ⟨0x40010000⟩ .data, .lookup root ⟨0x200000⟩] := rfl
    have hmapped : ∃ s ∈ stages doubled (unshifted (doubledActs root)),
        s.answer = .ok (.mapped (.ok 2)) := by
      rw [hplain, stages_of_ok hrun₀, stages_of_ok hrun₁, stages_of_ok hrun₂]
      exact ⟨_, List.mem_cons_of_mem _ (List.mem_cons_of_mem _ List.mem_cons_self), rfl⟩
    exact ⟨root, poised_doubled, by decide, hlegal, hmapped,
      stages_without_shifts poised_doubled (by decide) hlegal⟩

end Memory

end HighHalf
