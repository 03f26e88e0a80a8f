import HighHalf.Proofs.Tables.Ranges

/-!
# Runs over the trees

A run is any interleaving of requests to the frame store, writes of callers into frames that
they hold, and requests to the mapper. Requests may be refused, run out of frames half way or
stop for good; the run goes on from whatever state they leave. In every state that is reached
the table trees are intact.

## Main definitions

* `World`: memory, and who has which of its frames
* `World.step`: what one operation makes of it
* `World.Reachable`: the states of all runs
* `World.Intact`: what holds of the trees in such a state
-/

namespace HighHalf

open Memory Tables

/-- Memory, the roots of its trees, the frames that callers hold and the leaf tables that the
mapper gave out. -/
structure World where
  memory : Memory
  roots : List PhysAddr
  held : List PhysAddr
  leafTables : List PhysAddr

/-- An operation of a run. -/
inductive Op where
  /-- Take a frame. -/
  | allocate
  /-- Take a frame for a table and make it a root. -/
  | newRoot
  /-- Park frames for tables. -/
  | park (n : Nat)
  /-- Give a frame back. -/
  | release (p : PhysAddr)
  /-- Write byte `i` of a frame. -/
  | write (p : PhysAddr) (i : Nat) (v : UInt8)
  /-- Make the leaf table of an address. -/
  | makeLeafTable (root : PhysAddr) (v : VirtAddr)
  /-- Map a range. -/
  | mapRange (root : PhysAddr) (start stop : VirtAddr) (p : PhysAddr) (f : Flags)
  /-- Map a page through a leaf table. -/
  | mapPage (table : PhysAddr) (v : VirtAddr) (p : PhysAddr) (f : Flags)
  /-- Unmap a page. -/
  | unmapPage (root : PhysAddr) (v : VirtAddr)

namespace World

/-- What a caller may ask for: only frames it holds are given back or written, trees are named
by their roots, and pages are mapped through leaf tables that the mapper gave out. -/
def Allows (s : World) : Op → Prop
  | .release p => p ∈ s.held
  | .write p i _ => p ∈ s.held ∧ i < 4096
  | .makeLeafTable root _ => root ∈ s.roots
  | .mapRange root _ _ _ _ => root ∈ s.roots
  | .mapPage table _ _ _ => table ∈ s.leafTables
  | .unmapPage root _ => root ∈ s.roots
  | .allocate | .newRoot | .park _ => True

/-- The world after a step on memory, whatever way it ended. -/
def after {α : Type} (s : World) : EStateM.Result Fatal Memory α → World
  | .ok _ m => { s with memory := m }
  | .error _ m => { s with memory := m }

/-- What an operation makes of the world. -/
def step (s : World) : Op → World
  | .allocate =>
    match Memory.allocate s.memory with
    | .ok (some p) m => { s with memory := m, held := p :: s.held }
    | r => s.after r
  | .newRoot =>
    match Memory.allocateTable s.memory with
    | .ok (some p) m => { s with memory := m, roots := p :: s.roots }
    | r => s.after r
  | .park n => s.after (Memory.park n s.memory)
  | .release p =>
    match Memory.release p s.memory with
    | .ok (.ok _) m => { s with memory := m, held := s.held.filter (· ≠ p) }
    | r => s.after r
  | .write p i v =>
    { s with memory := s.memory.stored (.byte (s.memory.frames.window.reach (p.up i)) v) }
  | .makeLeafTable root v =>
    match (Tables.makeLeafTable root v).run s.memory with
    | .ok (.ok t) m => { s with memory := m, leafTables := t :: s.leafTables }
    | r => s.after r
  | .mapRange root start stop p f =>
    s.after ((Tables.mapRange root start stop p f).run s.memory)
  | .mapPage table v p f =>
    s.after ((Memory.request (Tables.mapPage s.memory.frames.window table v p f)).run s.memory)
  | .unmapPage root v =>
    s.after ((Memory.request (Tables.unmapPage s.memory.frames.window root v)).run s.memory)

/-- The states of all runs from a store that was just set up over a range below `2 ^ 48`. -/
inductive Reachable : World → Prop where
  | start {m m' : Memory} {image : PhysRange} : Unset m → m.frames.region.stop.num ≤ 2 ^ 48 →
      Memory.setup image m = .ok (.ok ()) m' → Reachable ⟨m', [], [], []⟩
  | step {s : World} {op : Op} : Reachable s → s.Allows op → Reachable (s.step op)

variable {s : World} {op : Op} {m m' : Memory} {root t p : PhysAddr} {path : List Nat} {i n : Nat}

theorem step_park : s.step (.park n) = s.after (Memory.park n s.memory) := rfl

theorem step_mapRange {start stop : VirtAddr} {f : Flags} :
    s.step (.mapRange root start stop p f) =
      s.after ((Tables.mapRange root start stop p f).run s.memory) := rfl

theorem step_mapPage {v : VirtAddr} {f : Flags} :
    s.step (.mapPage t v p f) = s.after
      ((Memory.request (Tables.mapPage s.memory.frames.window t v p f)).run s.memory) := rfl

theorem step_unmapPage {v : VirtAddr} :
    s.step (.unmapPage root v) = s.after
      ((Memory.request (Tables.unmapPage s.memory.frames.window root v)).run s.memory) := rfl

/-! ## What every step keeps -/

/-- The trees are sound, and the leaf tables that were given out are leaf tables. -/
structure Good (s : World) : Prop where
  sound : s.memory.Sound s.roots s.held
  leafTables : ∀ t ∈ s.leafTables, ∃ root ∈ s.roots, ∃ path : List Nat, path.length = 3 ∧
    s.memory.Reaches root path t

theorem Good.grows (h : s.Good) (g : Grows s.memory m s.roots s.held) :
    Good { s with memory := m } where
  sound := g.sound
  leafTables := by
    intro t ht
    obtain ⟨root, hroot, path, hlen, hr⟩ := h.leafTables t ht
    exact ⟨root, hroot, path, hlen, g.reaches root hroot path t hr⟩

theorem Good.start {image : PhysRange} (h : Unset m) (htop : m.frames.region.stop.num ≤ 2 ^ 48)
    (hok : Memory.setup image m = .ok (.ok ()) m') : Good ⟨m', [], [], []⟩ where
  sound := by
    obtain ⟨place, hfits⟩ := fits_of_setup h.ready hok
    have hset := setup_spec h.blank hok
    have htotal := hset.consistent.plan.total_eq
    have hlow := hfits.low
    have hhigh := hfits.high
    refine sound_of_setUp hset ?_
    show m'.frames.region.start.num + 4096 * m'.frames.total ≤ 2 ^ 48
    rw [hset.region] at htotal ⊢
    omega
  leafTables := nofun

theorem Good.allocate (h : s.Good) : (s.step .allocate).Good := by
  rcases allocate_spec h.sound.consistent with ⟨m, hrun, hkeeps, -⟩ | ⟨p, m, hrun, hspares, hgrants⟩
  · rw [step, hrun]
    exact h.grows (grows_spares h.sound (hkeeps.spares h.sound.consistent)).1
  · rw [step, hrun]
    have hg := h.grows (grows_spares h.sound hspares).1
    exact ⟨hg.sound.hold (h.sound.granted hspares hgrants), hg.leafTables⟩

theorem Good.newRoot (h : s.Good) : (s.step .newRoot).Good := by
  rcases newRoot_spec h.sound with ⟨m, hrun, hgrows, -⟩ | ⟨p, m, hrun, hsound, hgrows, -⟩
  · rw [step, hrun]
    exact h.grows hgrows
  · rw [step, hrun]
    refine ⟨hsound, fun t ht => ?_⟩
    obtain ⟨root, hroot, hrest⟩ := (h.grows hgrows).leafTables t ht
    exact ⟨root, List.mem_cons_of_mem p hroot, hrest⟩

theorem Good.park (h : s.Good) (n : Nat) : (s.step (.park n)).Good := by
  obtain ⟨k, m, hrun, hspares, -⟩ := park_spec n h.sound.consistent
  rw [step_park, hrun]
  exact h.grows (grows_spares h.sound hspares).1

theorem Good.release (h : s.Good) (hp : p ∈ s.held) : (s.step (.release p)).Good := by
  obtain ⟨m, hrun, hrel⟩ := release_spec h.sound.consistent (h.sound.held_owned p hp)
  obtain ⟨hsound, hext⟩ := h.sound.release hp hrel
  rw [step, hrun]
  refine ⟨hsound, fun t ht => ?_⟩
  obtain ⟨root, hroot, path, hlen, hr⟩ := h.leafTables t ht
  exact ⟨root, hroot, path, hlen, hext.reaches root hroot path t hr⟩

theorem Good.write (h : s.Good) (hp : p ∈ s.held) (hi : i < 4096) (v : UInt8) :
    (s.step (.write p i v)).Good := by
  have hman := (h.sound.held_owned p hp).managed
  have htouch := touches_write h.sound.consistent.usable hman hi v
  obtain ⟨hsound, hext⟩ := h.sound.scribble hp htouch
  exact h.grows ⟨hsound, hext.reaches, htouch.plan, htouch.bank, (htouch.within hman).rest⟩

theorem Good.makeLeafTable (h : s.Good) (hroot : root ∈ s.roots) (v : VirtAddr) :
    (s.step (.makeLeafTable root v)).Good := by
  obtain ⟨r, m, hrun, hgrows, -, hmade⟩ := makeLeafTable_spec v h.sound hroot
  have hg := h.grows hgrows
  rw [step, hrun]
  rcases r with e | t
  · exact hg
  · refine ⟨hg.sound, fun u hu => ?_⟩
    rcases List.mem_cons.1 hu with rfl | hu
    · exact ⟨root, hroot, v.trail 3, v.length_trail 3, hmade.1⟩
    · exact hg.leafTables u hu

theorem Good.mapRange (h : s.Good) (hroot : root ∈ s.roots) (start stop : VirtAddr)
    (p : PhysAddr) (f : Flags) : (s.step (.mapRange root start stop p f)).Good := by
  have hspec := mapRange_spec start stop p f h.sound hroot
  rw [step_mapRange]
  cases hrun : (Tables.mapRange root start stop p f).run s.memory with
  | error e m =>
    rw [hrun] at hspec
    exact h.grows hspec.1
  | ok r m =>
    rw [hrun] at hspec
    rcases r with e | n
    · exact h.grows hspec.1
    · exact h.grows hspec.1

theorem Good.mapPage (h : s.Good) (ht : t ∈ s.leafTables) (v : VirtAddr) (p : PhysAddr)
    (f : Flags) : (s.step (.mapPage t v p f)).Good := by
  obtain ⟨root, hroot, path, hlen, hr⟩ := h.leafTables t ht
  rcases mapPage_spec v p f h.sound hroot hr hlen with ⟨e, hrun, -⟩ | ⟨-, m, hrun, hgrows, -⟩
  · rw [step_mapPage, hrun]
    exact h
  · rw [step_mapPage, hrun]
    exact h.grows hgrows

theorem Good.unmapPage (h : s.Good) (hroot : root ∈ s.roots) (v : VirtAddr) :
    (s.step (.unmapPage root v)).Good := by
  rcases unmapPage_spec v h.sound hroot with ⟨hrun, -⟩ | ⟨m, hrun, hgrows, -⟩
  · rw [step_unmapPage, hrun]
    exact h
  · rw [step_unmapPage, hrun]
    exact h.grows hgrows

theorem Good.step (h : s.Good) (ha : s.Allows op) : (s.step op).Good := by
  cases op with
  | allocate => exact h.allocate
  | newRoot => exact h.newRoot
  | park n => exact h.park n
  | release p => exact h.release ha
  | write p i v => exact h.write ha.1 ha.2 v
  | makeLeafTable root v => exact h.makeLeafTable ha v
  | mapRange root start stop p f => exact h.mapRange ha start stop p f
  | mapPage t v p f => exact h.mapPage ha v p f
  | unmapPage root v => exact h.unmapPage ha v

theorem Reachable.good (h : Reachable s) : s.Good := by
  induction h with
  | start hunset htop hok => exact Good.start hunset htop hok
  | step _ ha ih => exact ih.step ha

/-! ## The trees of a reachable state -/

/-- What holds of the trees of a world. -/
structure Intact (s : World) : Prop where
  /-- A word of an upper table is 0, or exactly the address of a table of the tree and the kind
  bits. -/
  upper : ∀ root ∈ s.roots, ∀ path t, s.memory.Reaches root path t → path.length < 3 →
    ∀ i < 512, (s.memory.entry t i).raw = 0 ∨ ∃ next : PhysAddr, next.aligned = true ∧
      next.num < 2 ^ 48 ∧ (s.memory.entry t i).raw = next.val ||| Flags.page.bits ∧
      s.memory.Reaches root (i :: path) next
  /-- A word of a leaf table is 0 or a complete leaf. -/
  leaves : ∀ root ∈ s.roots, ∀ path t, s.memory.Reaches root path t → path.length = 3 →
    ∀ i < 512, (s.memory.entry t i).raw = 0 ∨ (s.memory.entry t i).isLeaf = true
  /-- A table has one place in one tree. -/
  once : ∀ root ∈ s.roots, ∀ root' ∈ s.roots, ∀ path path' t, s.memory.Reaches root path t →
    s.memory.Reaches root' path' t → root = root' ∧ path = path'
  /-- A table is linked from one entry of one table. -/
  parent : ∀ root ∈ s.roots, ∀ root' ∈ s.roots, ∀ path path' t t' i i',
    s.memory.Reaches root path t → s.memory.Reaches root' path' t' →
    path.length < 3 → path'.length < 3 → i < 512 → i' < 512 →
    (s.memory.entry t i).isTable = true → (s.memory.entry t' i').isTable = true →
    (s.memory.entry t i).addr = (s.memory.entry t' i').addr → root = root' ∧ t = t' ∧ i = i'
  /-- No root is linked below a root. -/
  rootless : ∀ root ∈ s.roots, ∀ path t, s.memory.Reaches root path t → path ≠ [] → t ∉ s.roots
  /-- The frame of a table is marked and behind the reserved ones. -/
  used : ∀ root ∈ s.roots, ∀ path t, s.memory.Reaches root path t →
    s.memory.marked (s.memory.frames.indexOf t) = true ∧
      s.memory.frames.reserved ≤ s.memory.frames.indexOf t ∧
      s.memory.frames.indexOf t < s.memory.frames.total
  /-- No caller holds the frame of a table, and it is not parked. -/
  unheld : ∀ root ∈ s.roots, ∀ path t, s.memory.Reaches root path t →
    t ∉ s.held ∧ t ∉ s.memory.frames.pool

theorem Good.toIntact (h : s.Good) : s.Intact where
  upper := by
    intro root hroot path t hr hlen i hi
    rcases h.sound.inner root hroot path t hr hlen i hi with hempty | ⟨htable, heq⟩
    · exact Or.inl (by rw [hempty]; rfl)
    · have hlink := hr.link hlen hi htable
      have howned := h.sound.owned root hroot _ _ hlink
      have hhigh := howned.managed.high
      have hnarrow := h.sound.narrow
      exact Or.inr ⟨_, howned.aligned, by omega, congrArg Entry.raw heq, hlink⟩
  leaves := by
    intro root hroot path t hr hlen i hi
    rcases h.sound.outer root hroot path t hr hlen i hi with hempty | hleaf
    · exact Or.inl (by rw [hempty]; rfl)
    · exact Or.inr hleaf
  once := h.sound.unique
  parent := by
    intro root hroot root' hroot' path path' t t' i i' hr hr' hlen hlen' hi hi' htab htab' haddr
    have hlink := hr.link hlen hi htab
    have hlink' := hr'.link hlen' hi' htab'
    rw [← haddr] at hlink'
    -- Two entries with one target give the target two paths, which are the same.
    obtain ⟨rfl, hpath⟩ := h.sound.unique root hroot root' hroot' _ _ _ hlink hlink'
    rw [List.cons.injEq] at hpath
    obtain ⟨rfl, rfl⟩ := hpath
    exact ⟨rfl, hr.inj hr', rfl⟩
  rootless := by
    intro root hroot path t hr hpath ht
    exact hpath (h.sound.unique root hroot t ht path [] t hr Reaches.root).2
  used := by
    intro root hroot path t hr
    have howned := h.sound.owned root hroot path t hr
    obtain ⟨hlow, hhigh, -⟩ := howned.managed.index h.sound.consistent.plan
    exact ⟨howned.marked, hlow, hhigh⟩
  unheld := by
    intro root hroot path t hr
    exact ⟨h.sound.not_held root hroot path t hr, (h.sound.owned root hroot path t hr).not_parked⟩

/-- The trees are intact in every state of every run. -/
theorem Reachable.intact (h : Reachable s) : s.Intact := h.good.toIntact

/-- A run in the small store: a caller takes a frame, a root is made, and two pages are mapped. -/
theorem Reachable.intact_sample :
    ∃ m p root s, Memory.setup sampleImage sample = .ok (.ok ()) m ∧
      s = (((World.mk m [] [] []).step .allocate).step .newRoot).step
        (.mapRange root ⟨0x1FF000⟩ ⟨0x201000⟩ ⟨0x40010000⟩ .data) ∧
      s.held = [p] ∧ s.roots = [root] ∧ Reachable s ∧ s.Intact := by
  obtain ⟨m, hsetup, hset, hfree, hsupply, htop⟩ := setUp_sample
  have hstart : Reachable ⟨m, [], [], []⟩ := Reachable.start unset_sample (by decide) hsetup
  rcases allocate_spec hset.consistent with ⟨-, -, -, hnone⟩ | ⟨p, m₁, hrun₁, -, hgrants⟩
  · omega
  · have hs₁ : (World.mk m [] [] []).step .allocate = ⟨m₁, [], [p], []⟩ := by rw [World.step, hrun₁]
    have hr₁ : Reachable ⟨m₁, [], [p], []⟩ :=
      hs₁ ▸ hstart.step (show World.Allows _ .allocate from trivial)
    have hsupply₁ := hgrants.supply
    rcases newRoot_spec hr₁.good.sound with ⟨-, -, -, -, hnone⟩ | ⟨root, m₂, hrun₂, -⟩
    · have hleft : m₁.supply = 0 := hnone
      omega
    · have hs₂ : (World.mk m₁ [] [p] []).step .newRoot = ⟨m₂, [root], [p], []⟩ := by
        rw [World.step, hrun₂]
      have hr₂ : Reachable ⟨m₂, [root], [p], []⟩ :=
        hs₂ ▸ hr₁.step (show World.Allows _ .newRoot from trivial)
      have hallows : World.Allows ⟨m₂, [root], [p], []⟩
          (.mapRange root ⟨0x1FF000⟩ ⟨0x201000⟩ ⟨0x40010000⟩ .data) := List.mem_singleton.2 rfl
      have hr₃ := hr₂.step hallows
      refine ⟨m, p, root, _, hsetup, by rw [hs₁, hs₂], ?_, ?_, hr₃, hr₃.intact⟩
      · rw [World.step]
        cases (Tables.mapRange root ⟨0x1FF000⟩ ⟨0x201000⟩ ⟨0x40010000⟩ .data).run m₂ <;> rfl
      · rw [World.step]
        cases (Tables.mapRange root ⟨0x1FF000⟩ ⟨0x201000⟩ ⟨0x40010000⟩ .data).run m₂ <;> rfl

end World

end HighHalf
