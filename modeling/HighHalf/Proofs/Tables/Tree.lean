import HighHalf.Proofs.Frames.Requests

/-!
# The shape of the table trees

A table is reached from a root along a list of slots. The trees are sound when every word of a
reached table is one that the mapper writes at its level, every reached table is owned and held
by no caller, and no table is reached in two ways. Each change to RAM is shown to keep the trees
sound, and what it does to the leaves of an address.

## Main definitions

* `VirtAddr.trail`: the slots of an address, deepest first
* `Memory.Reaches`: the table reached from a root along a list of slots
* `Memory.Sound`: the invariant of the trees below some roots
-/

namespace HighHalf

namespace VirtAddr

/-- The slots of the first `k` levels, the deepest first. -/
def trail (v : VirtAddr) : Nat → List Nat
  | 0 => []
  | k + 1 => v.slot k :: v.trail k

@[simp] theorem length_trail (v : VirtAddr) (k : Nat) : (v.trail k).length = k := by
  induction k with
  | zero => rfl
  | succ k ih => rw [trail, List.length_cons, ih]

end VirtAddr

namespace Memory

/-- Entry `i` of the table at `t`. -/
def entry (m : Memory) (t : PhysAddr) (i : Nat) : Entry :=
  Tables.entry m.board.ram m.frames.window t i

/-- The leaf for `v` below `root`. -/
def lookup (m : Memory) (root : PhysAddr) (v : VirtAddr) : Entry :=
  Tables.lookup m.board.ram m.frames.window root v

/-- The table that is reached from `root` along a list of slots, the last slot first. -/
inductive Reaches (m : Memory) (root : PhysAddr) : List Nat → PhysAddr → Prop where
  | root : Reaches m root [] root
  | link {path : List Nat} {t : PhysAddr} {i : Nat} : Reaches m root path t → path.length < 3 →
      i < 512 → (m.entry t i).isTable = true → Reaches m root (i :: path) (m.entry t i).addr

variable {m m' m'' : Memory} {root root' t u p q : PhysAddr} {path path' : List Nat}
  {roots held : List PhysAddr} {v : VirtAddr} {i j k n : Nat} {e : Entry}

/-! ## Reaching a table -/

theorem Reaches.inj (h : Reaches m root path t) (h' : Reaches m root path u) : t = u := by
  induction h generalizing u with
  | root =>
    cases h'
    rfl
  | link _ _ _ _ ih =>
    cases h' with
    | link h'' _ _ _ => rw [ih h'']

/-- A table is reached through the one above it. -/
theorem Reaches.above (h : Reaches m root (v.trail (k + 1)) u) :
    ∃ t, Reaches m root (v.trail k) t ∧ (m.entry t (v.slot k)).isTable = true := by
  unfold VirtAddr.trail at h
  cases h with
  | link h' _ _ htable => exact ⟨_, h', htable⟩

theorem Reaches.upTo (h : Reaches m root (v.trail (k + n)) u) :
    ∃ t, Reaches m root (v.trail k) t := by
  induction n generalizing u with
  | zero => exact ⟨u, h⟩
  | succ n ih =>
    obtain ⟨t, ht, -⟩ := h.above
    exact ih ht

/-- The walk finds what is reached along the slots of the address. -/
theorem descend_eq_some_iff (h : Reaches m root (v.trail k) t) (hk : k + n ≤ 3) :
    Tables.descend m.board.ram m.frames.window v t k n = some u ↔
      Reaches m root (v.trail (k + n)) u := by
  induction n generalizing k t with
  | zero =>
    rw [Tables.descend, Option.some.injEq]
    exact ⟨fun he => he ▸ h, fun h' => h.inj h'⟩
  | succ n ih =>
    unfold Tables.descend
    have hentry : Tables.entry m.board.ram m.frames.window t (v.slot k) =
        m.entry t (v.slot k) := rfl
    simp only [hentry]
    cases htable : (m.entry t (v.slot k)).isTable with
    | true =>
      have hlink : Reaches m root (v.trail (k + 1)) (m.entry t (v.slot k)).addr :=
        h.link (by rw [VirtAddr.length_trail]; omega) (v.slot_lt k) htable
      rw [if_pos rfl, ih hlink (by omega), show k + 1 + n = k + (n + 1) by omega]
    | false =>
      rw [if_neg (by simp)]
      refine ⟨nofun, fun h' => ?_⟩
      rw [show k + (n + 1) = k + 1 + n by omega] at h'
      obtain ⟨t₁, h₁⟩ := h'.upTo
      obtain ⟨t₀, h₀, htable₀⟩ := h₁.above
      rw [h.inj h₀, htable₀] at htable
      cases htable

theorem leafTable?_eq_some_iff :
    Tables.leafTable? m.board.ram m.frames.window root v = some t ↔
      Reaches m root (v.trail 3) t := by
  have hroot : Reaches m root (v.trail 0) root := Reaches.root
  exact descend_eq_some_iff hroot (Nat.le_refl 3)

theorem lookup_of_reaches (h : Reaches m root (v.trail 3) t) :
    m.lookup root v = if (m.entry t (v.slot 3)).isValid then m.entry t (v.slot 3) else .empty := by
  rw [lookup, Tables.lookup, leafTable?_eq_some_iff.2 h]
  rfl

theorem lookup_of_not_reaches (h : ∀ t, ¬ Reaches m root (v.trail 3) t) :
    m.lookup root v = .empty := by
  have hnone : Tables.leafTable? m.board.ram m.frames.window root v = none := by
    rw [Option.eq_none_iff_forall_ne_some]
    exact fun t ht => h t (leafTable?_eq_some_iff.1 ht)
  rw [lookup, Tables.lookup, hnone]

/-- Addresses with the same slots have the same leaf. -/
theorem lookup_eq_of_trail {u : VirtAddr} (h : u.trail 4 = v.trail 4) :
    m.lookup root u = m.lookup root v := by
  obtain ⟨hslot, htrail⟩ : u.slot 3 = v.slot 3 ∧ u.trail 3 = v.trail 3 := List.cons.inj h
  by_cases hr : ∃ t, Reaches m root (v.trail 3) t
  · obtain ⟨t, ht⟩ := hr
    rw [lookup_of_reaches ht, lookup_of_reaches (v := u) (by rwa [htrail]), hslot]
  · rw [lookup_of_not_reaches fun t ht => hr ⟨t, ht⟩,
      lookup_of_not_reaches (v := u) fun t ht => hr ⟨t, by rwa [← htrail]⟩]

/-- The shape of a tree hangs on the words of the tables of its upper levels. -/
theorem reaches_congr (h : ∀ path t, Reaches m root path t → path.length < 3 → ∀ i < 512,
      m'.entry t i = m.entry t i) :
    Reaches m' root path t ↔ Reaches m root path t := by
  constructor
  · intro hr
    induction hr with
    | root => exact Reaches.root
    | link _ hlen hi htable ih =>
      rw [h _ _ ih hlen _ hi] at htable ⊢
      exact ih.link hlen hi htable
  · intro hr
    induction hr with
    | root => exact Reaches.root
    | link hr hlen hi htable ih =>
      have he := h _ _ hr hlen _ hi
      rw [← he] at htable ⊢
      exact ih.link hlen hi htable

theorem lookup_congr
    (h : ∀ path t, Reaches m root path t → ∀ i < 512, m'.entry t i = m.entry t i) (v : VirtAddr) :
    m'.lookup root v = m.lookup root v := by
  have hreach : ∀ path t, Reaches m' root path t ↔ Reaches m root path t :=
    fun path t => reaches_congr fun path t ht _ => h path t ht
  by_cases hr : ∃ t, Reaches m root (v.trail 3) t
  · obtain ⟨t, ht⟩ := hr
    rw [lookup_of_reaches ht, lookup_of_reaches ((hreach _ _).2 ht), h _ _ ht _ (v.slot_lt 3)]
  · rw [lookup_of_not_reaches fun t ht => hr ⟨t, ht⟩,
      lookup_of_not_reaches fun t ht => hr ⟨t, (hreach _ _).1 ht⟩]

/-! ## The invariant -/

/-- The trees below `roots` are what the mapper builds; `held` are frames that callers hold. -/
structure Sound (m : Memory) (roots held : List PhysAddr) : Prop where
  consistent : Consistent m
  narrow : m.frames.region.start.num + 4096 * m.frames.total ≤ 2 ^ 48
  owned : ∀ root ∈ roots, ∀ path t, Reaches m root path t → m.Owned t
  inner : ∀ root ∈ roots, ∀ path t, Reaches m root path t → path.length < 3 → ∀ i < 512,
    m.entry t i = .empty ∨
      (m.entry t i).isTable = true ∧ m.entry t i = .toTable (m.entry t i).addr
  outer : ∀ root ∈ roots, ∀ path t, Reaches m root path t → path.length = 3 → ∀ i < 512,
    m.entry t i = .empty ∨ (m.entry t i).isLeaf = true
  unique : ∀ root ∈ roots, ∀ root' ∈ roots, ∀ path path' t, Reaches m root path t →
    Reaches m root' path' t → root = root' ∧ path = path'
  not_held : ∀ root ∈ roots, ∀ path t, Reaches m root path t → t ∉ held
  held_owned : ∀ p ∈ held, m.Owned p

/-- The later trees have all tables of the earlier ones, and the same leaves. -/
structure Extends (m m' : Memory) (roots : List PhysAddr) : Prop where
  reaches : ∀ root ∈ roots, ∀ path t, Reaches m root path t → Reaches m' root path t
  lookup : ∀ root ∈ roots, ∀ v, m'.lookup root v = m.lookup root v

/-- Changes that leave every reached table alone, while callers may let go of frames. -/
theorem Sound.of_frames (h : Sound m roots held) (hc : Consistent m')
    (hregion : m'.frames.region = m.frames.region) (htotal : m'.frames.total = m.frames.total)
    (hbank : Ram.SameBank m.board.ram m'.board.ram)
    (htables : ∀ root ∈ roots, ∀ path t, Reaches m root path t →
      m'.Owned t ∧ Ram.SameOn m.board.ram m'.board.ram t.num (t.num + 4096))
    {held' : List PhysAddr} (hheld : ∀ p ∈ held', p ∈ held ∧ m'.Owned p) :
    Sound m' roots held' ∧ Extends m m' roots := by
  have hentry : ∀ root ∈ roots, ∀ path t, Reaches m root path t → ∀ i < 512,
      m'.entry t i = m.entry t i := by
    intro root hroot path t hr i hi
    have hs := h.consistent
    have hman := (h.owned root hroot path t hr).managed
    have hsame := (htables root hroot path t hr).2
    exact Tables.entry_congr hs.shows hc.shows hbank (hs.has hman) hi hsame
  have hreach : ∀ root ∈ roots, ∀ path t, Reaches m' root path t ↔ Reaches m root path t :=
    fun root hroot path t => reaches_congr fun path t hr _ => hentry root hroot path t hr
  refine ⟨⟨hc, ?_, ?_, ?_, ?_, ?_, ?_, fun p hp => (hheld p hp).2⟩,
    fun root hroot path t => (hreach root hroot path t).2,
    fun root hroot => lookup_congr (hentry root hroot)⟩
  · rw [hregion, htotal]
    exact h.narrow
  · intro root hroot path t hr
    exact (htables root hroot path t ((hreach root hroot path t).1 hr)).1
  · intro root hroot path t hr hlen i hi
    have hr' := (hreach root hroot path t).1 hr
    rw [hentry root hroot path t hr' i hi]
    exact h.inner root hroot path t hr' hlen i hi
  · intro root hroot path t hr hlen i hi
    have hr' := (hreach root hroot path t).1 hr
    rw [hentry root hroot path t hr' i hi]
    exact h.outer root hroot path t hr' hlen i hi
  · intro root hroot root' hroot' path path' t hr hr'
    exact h.unique root hroot root' hroot' path path' t ((hreach root hroot path t).1 hr)
      ((hreach root' hroot' path' t).1 hr')
  · intro root hroot path t hr hp
    exact h.not_held root hroot path t ((hreach root hroot path t).1 hr) (hheld t hp).1

theorem Sound.of_tables (h : Sound m roots held) (hc : Consistent m')
    (hplan : Frames.SamePlan m.frames m'.frames) (hbank : Ram.SameBank m.board.ram m'.board.ram)
    (htables : ∀ root ∈ roots, ∀ path t, Reaches m root path t →
      m'.Owned t ∧ Ram.SameOn m.board.ram m'.board.ram t.num (t.num + 4096))
    {held' : List PhysAddr} (hheld : ∀ p ∈ held', p ∈ held ∧ m'.Owned p) :
    Sound m' roots held' ∧ Extends m m' roots :=
  h.of_frames hc hplan.region hplan.total hbank htables hheld

/-! ## Requests to the frame store -/

/-- Trees survive what spares owned frames. -/
theorem Sound.spares (h : Sound m roots held) (s : Spares m m') :
    Sound m' roots held ∧ Extends m m' roots := by
  refine h.of_tables s.consistent s.plan s.bank ?_ fun p hp => ⟨hp, s.owned p (h.held_owned p hp)⟩
  intro root hroot path t hr
  have ho := h.owned root hroot path t hr
  exact ⟨s.owned t ho, s.cells t ho⟩

theorem Spares.entry (s : Spares m m') (h : Consistent m) (ht : m.Owned t) (hi : i < 512) :
    m'.entry t i = m.entry t i :=
  Tables.entry_congr h.shows s.consistent.shows s.bank (h.has ht.managed) hi (s.cells t ht)

/-- A request that spares owned frames links and unlinks no table. -/
theorem Sound.reaches_spares (h : Sound m roots held) (s : Spares m m') (hroot : root ∈ roots) :
    Reaches m' root path t ↔ Reaches m root path t :=
  reaches_congr fun path t ht _ _ hi => s.entry h.consistent (h.owned root hroot path t ht) hi

/-- A zeroed frame that is owned and neither part of a tree nor held. -/
structure Fresh (m : Memory) (roots held : List PhysAddr) (p : PhysAddr) : Prop where
  owned : m.Owned p
  not_reached : ∀ root ∈ roots, ∀ path, ¬ Reaches m root path p
  not_held : p ∉ held
  empty : ∀ i < 512, m.entry p i = .empty

theorem Sound.num_lt_of_fresh (h : Sound m roots held) (f : Fresh m roots held p) :
    p.num < 2 ^ 48 := by
  have h1 := f.owned.managed.high
  have h2 := h.narrow
  omega

/-- A frame that is granted is fresh. -/
theorem Sound.granted (h : Sound m roots held) (s : Spares m m') (g : Grants m m' p) :
    Fresh m' roots held p where
  owned := g.owned
  not_reached := by
    intro root hroot path hr
    have hr' : Reaches m root path p := (h.reaches_spares s hroot).1 hr
    exact g.not_owned (h.owned root hroot path p hr')
  not_held := fun hp => g.not_owned (h.held_owned p hp)
  empty := by
    intro i hi
    have hc := s.consistent
    exact Tables.entry_of_zero hc.shows (hc.has g.owned.managed) hi g.zeroed

/-- A caller holds the frame. -/
theorem Sound.hold (h : Sound m roots held) (f : Fresh m roots held p) :
    Sound m roots (p :: held) where
  consistent := h.consistent
  narrow := h.narrow
  owned := h.owned
  inner := h.inner
  outer := h.outer
  unique := h.unique
  not_held := by
    intro root hroot path t hr hp
    rcases List.mem_cons.1 hp with rfl | hp
    · exact f.not_reached root hroot path hr
    · exact h.not_held root hroot path t hr hp
  held_owned := by
    intro q hq
    rcases List.mem_cons.1 hq with rfl | hq
    · exact f.owned
    · exact h.held_owned q hq

/-- From an empty table nothing is reached but itself. -/
theorem Reaches.of_empty (h : Reaches m p path t) (hp : ∀ i < 512, m.entry p i = .empty) :
    path = [] ∧ t = p := by
  induction h with
  | root => exact ⟨rfl, rfl⟩
  | link _ _ hi htable ih =>
    rw [ih.2, hp _ hi] at htable
    cases htable

/-- The frame is made the root of a new tree. -/
theorem Sound.addRoot (h : Sound m roots held) (f : Fresh m roots held p) :
    Sound m (p :: roots) held := by
  have hcases : ∀ root ∈ p :: roots, ∀ path t, Reaches m root path t →
      root ∈ roots ∨ root = p ∧ path = [] ∧ t = p := by
    intro root hroot path t hr
    rcases List.mem_cons.1 hroot with rfl | hroot
    · exact Or.inr ⟨rfl, hr.of_empty f.empty⟩
    · exact Or.inl hroot
  refine ⟨h.consistent, h.narrow, ?_, ?_, ?_, ?_, ?_, h.held_owned⟩
  · intro root hroot path t hr
    rcases hcases root hroot path t hr with hold | ⟨rfl, rfl, rfl⟩
    · exact h.owned root hold path t hr
    · exact f.owned
  · intro root hroot path t hr hlen i hi
    rcases hcases root hroot path t hr with hold | ⟨rfl, rfl, rfl⟩
    · exact h.inner root hold path t hr hlen i hi
    · exact Or.inl (f.empty i hi)
  · intro root hroot path t hr hlen i hi
    rcases hcases root hroot path t hr with hold | ⟨rfl, rfl, rfl⟩
    · exact h.outer root hold path t hr hlen i hi
    · exact Or.inl (f.empty i hi)
  · intro root hroot root' hroot' path path' t hr hr'
    rcases hcases root hroot path t hr with hold | ⟨rfl, rfl, rfl⟩
    · rcases hcases root' hroot' path' t hr' with hold' | ⟨rfl, rfl, rfl⟩
      · exact h.unique root hold root' hold' path path' t hr hr'
      · exact absurd hr (f.not_reached root hold path)
    · rcases hcases root' hroot' path' t hr' with hold' | ⟨rfl, rfl, -⟩
      · exact absurd hr' (f.not_reached root' hold' path')
      · exact ⟨rfl, rfl⟩
  · intro root hroot path t hr
    rcases hcases root hroot path t hr with hold | ⟨rfl, rfl, rfl⟩
    · exact h.not_held root hold path t hr
    · exact f.not_held

/-! ## What callers do with their frames -/

/-- A caller writes into a frame that it holds. -/
theorem Sound.scribble (h : Sound m roots held) (hp : p ∈ held) (ht : Touches m m' p) :
    Sound m' roots held ∧ Extends m m' roots := by
  have hc := h.consistent
  have hman := (h.held_owned p hp).managed
  refine h.of_tables (ht.consistent hc hman) ht.plan ht.bank ?_ ?_
  · intro root hroot path t hr
    have ho := h.owned root hroot path t hr
    have hne : t ≠ p := fun he => h.not_held root hroot path t hr (he ▸ hp)
    exact ⟨(ht.owned hc hman).2 ho, ht.sameOn hc hman ho.managed hne⟩
  · exact fun q hq => ⟨hq, (ht.owned hc hman).2 (h.held_owned q hq)⟩

/-- A caller gives a frame back that it holds. -/
theorem Sound.release (h : Sound m roots held) (hp : p ∈ held) (hr : Releases m m' p) :
    Sound m' roots (held.filter (· ≠ p)) ∧ Extends m m' roots := by
  have hc := h.consistent
  refine h.of_tables hr.consistent hr.plan hr.bank ?_ ?_
  · intro root hroot path t ht
    have ho := h.owned root hroot path t ht
    have hne : t ≠ p := fun he => h.not_held root hroot path t ht (he ▸ hp)
    have hlow := (hc.has ho.managed).1
    refine ⟨(hr.owned t).2 ⟨ho, hne⟩, fun n hn hn' => ?_⟩
    exact hr.cells n (by omega) (hc.not_inBitmap ho.managed hn)
  · intro q hq
    rw [List.mem_filter, decide_eq_true_eq] at hq
    exact ⟨hq.1, (hr.owned q).2 ⟨h.held_owned q hq.1, hq.2⟩⟩

/-! ## Installing a descriptor -/

/-- One word of a table is replaced. -/
structure Installs (m m' : Memory) (t : PhysAddr) (i : Nat) (e : Entry) : Prop where
  frames : m'.frames = m.frames
  ram : m'.board.ram = m.board.ram.setWord (Tables.entryPlace m.frames.window t i) e.raw

theorem Installs.touches (hin : Installs m m' t i e) (hu : Usable m) (ht : m.frames.Manages t)
    (hi : i < 512) : Touches m m' t := by
  obtain ⟨hnum, hhas⟩ := Tables.has_entry hu.shows (hu.has ht) hi
  refine ⟨hin.frames, by rw [hin.ram]; exact Ram.sameBank_setWord .., fun n hn hout => ?_⟩
  rw [cell, hin.ram, Tables.entryPlace_eq]
  exact Ram.cell_setWord_of_lt hu.shows (by rw [hnum]; exact hhas) e.raw hn (by omega)

theorem Installs.entry_self (hin : Installs m m' t i e) (hu : Usable m)
    (ht : m.frames.Manages t) (hi : i < 512) : m'.entry t i = e := by
  rw [entry, hin.ram, hin.frames]
  exact Tables.entry_setWord_self hu.shows (hu.has ht) hi e.raw

theorem Installs.entry_of_ne (hin : Installs m m' t i e) (hu : Usable m)
    (ht : m.frames.Manages t) (hq : m.frames.Manages u) (hi : i < 512) (hj : j < 512)
    (hne : u ≠ t ∨ j ≠ i) : m'.entry u j = m.entry u j := by
  rw [entry, hin.ram, hin.frames]
  exact Tables.entry_setWord_of_ne hu.shows (hu.has ht) (hu.has hq) ht.aligned hq.aligned hi hj hne
    e.raw

/-! ## Setting a leaf -/

section Leaf

variable {r : PhysAddr} {path' : List Nat} {u : PhysAddr} {j : Nat}
variable (h : Sound m roots held) (hroot : root ∈ roots) (hr : Reaches m root path t)
  (hi : i < 512) (hin : Installs m m' t i e)

include h hroot hr hi hin

theorem Sound.entry_of_ne (hr' : r ∈ roots) (hu : Reaches m r path' u) (hj : j < 512)
    (hne : u ≠ t ∨ j ≠ i) : m'.entry u j = m.entry u j :=
  hin.entry_of_ne h.consistent.usable (h.owned root hroot path t hr).managed
    (h.owned r hr' path' u hu).managed hi hj hne

variable (hlen : path.length = 3)

include hlen

/-- No table above the last level is the one whose entry was set. -/
theorem Sound.entry_of_upper (hr' : r ∈ roots) (hu : Reaches m r path' u) (hlt : path'.length < 3)
    (hj : j < 512) : m'.entry u j = m.entry u j := by
  refine h.entry_of_ne hroot hr hi hin hr' hu hj (Or.inl ?_)
  rintro rfl
  have hpath := (h.unique r hr' root hroot path' path u hu hr).2
  rw [hpath] at hlt
  omega

theorem Sound.reaches_leaf (hr' : r ∈ roots) : Reaches m' r path' u ↔ Reaches m r path' u :=
  reaches_congr fun _ _ hu hlt _ hj => h.entry_of_upper hroot hr hi hin hlen hr' hu hlt hj

theorem Sound.lookup_leaf (he : e = .empty ∨ e.isLeaf = true) (hr' : r ∈ roots) (v : VirtAddr) :
    m'.lookup r v = if r = root ∧ v.trail 4 = i :: path then e else m.lookup r v := by
  have hreach : ∀ path u, Reaches m' r path u ↔ Reaches m r path u :=
    fun _ _ => h.reaches_leaf hroot hr hi hin hlen hr'
  by_cases hv : ∃ u, Reaches m r (v.trail 3) u
  · obtain ⟨u, hu⟩ := hv
    rw [lookup_of_reaches ((hreach _ u).2 hu), lookup_of_reaches hu]
    by_cases hsame : r = root ∧ v.trail 4 = i :: path
    · rw [if_pos hsame]
      obtain ⟨rfl, htrail⟩ := hsame
      rw [VirtAddr.trail, List.cons.injEq] at htrail
      have hut : u = t := by
        rw [htrail.2] at hu
        exact hu.inj hr
      rw [hut, htrail.1, hin.entry_self h.consistent.usable
        (h.owned r hroot path t hr).managed hi]
      rcases he with rfl | hleaf
      · rfl
      · rw [if_pos (Entry.isValid_of_isLeaf hleaf)]
    · rw [if_neg hsame, h.entry_of_ne hroot hr hi hin hr' hu (v.slot_lt 3)]
      -- A table is reached along one path below one root, so the entry is another one.
      by_contra hno
      rw [not_or, not_not, not_not] at hno
      obtain ⟨rfl, rfl⟩ := hno
      obtain ⟨hr₂, hpath⟩ := h.unique r hr' root hroot _ path u hu hr
      exact hsame ⟨hr₂, by rw [VirtAddr.trail, hpath]⟩
  · rw [lookup_of_not_reaches fun u hu => hv ⟨u, (hreach _ u).1 hu⟩,
      lookup_of_not_reaches fun u hu => hv ⟨u, hu⟩, if_neg]
    rintro ⟨rfl, htrail⟩
    rw [VirtAddr.trail, List.cons.injEq] at htrail
    exact hv ⟨t, by rw [htrail.2]; exact hr⟩

end Leaf

/-- Writing or emptying a leaf changes that leaf of that tree and nothing else. -/
theorem Sound.leaf (h : Sound m roots held) (hroot : root ∈ roots) (hr : Reaches m root path t)
    (hlen : path.length = 3) (hi : i < 512) (he : e = .empty ∨ e.isLeaf = true)
    (hin : Installs m m' t i e) :
    Sound m' roots held ∧
      (∀ r ∈ roots, ∀ path u, Reaches m' r path u ↔ Reaches m r path u) ∧
      ∀ r ∈ roots, ∀ v : VirtAddr,
        m'.lookup r v = if r = root ∧ v.trail 4 = i :: path then e else m.lookup r v := by
  have hc := h.consistent
  have ht := h.owned root hroot path t hr
  have htouch := hin.touches hc.usable ht.managed hi
  have hreach : ∀ r ∈ roots, ∀ path u, Reaches m' r path u ↔ Reaches m r path u :=
    fun r hr' path u => h.reaches_leaf hroot hr hi hin hlen hr'
  refine ⟨?_, hreach, fun r hr' v => h.lookup_leaf hroot hr hi hin hlen he hr' v⟩
  constructor
  case consistent => exact htouch.consistent hc ht.managed
  case narrow =>
    rw [hin.frames]
    exact h.narrow
  case owned =>
    intro r hr' path' u hu
    exact (htouch.owned hc ht.managed).2 (h.owned r hr' path' u ((hreach r hr' path' u).1 hu))
  case inner =>
    intro r hr' path' u hu hlt j hj
    have hu' := (hreach r hr' path' u).1 hu
    rw [h.entry_of_upper hroot hr hi hin hlen hr' hu' hlt hj]
    exact h.inner r hr' path' u hu' hlt j hj
  case outer =>
    intro r hr' path' u hu hlen' j hj
    have hu' := (hreach r hr' path' u).1 hu
    by_cases hsame : u = t ∧ j = i
    · rw [hsame.1, hsame.2, hin.entry_self hc.usable ht.managed hi]
      exact he
    · rw [h.entry_of_ne hroot hr hi hin hr' hu' hj (by tauto)]
      exact h.outer r hr' path' u hu' hlen' j hj
  case unique =>
    intro r hr' r₂ hr₂ path' path₂ u hu hu₂
    exact h.unique r hr' r₂ hr₂ path' path₂ u ((hreach r hr' path' u).1 hu)
      ((hreach r₂ hr₂ path₂ u).1 hu₂)
  case not_held =>
    intro r hr' path' u hu
    exact h.not_held r hr' path' u ((hreach r hr' path' u).1 hu)
  case held_owned => exact fun q hq => (htouch.owned hc ht.managed).2 (h.held_owned q hq)

/-! ## Linking a table -/

/-- Linking a fresh frame from an empty entry adds one table and changes no other path. -/
theorem reaches_linked (h : Sound m roots held) (hroot : root ∈ roots) (hr : Reaches m root path t)
    (hlen : path.length < 3) (hi : i < 512) (hempty : m.entry t i = .empty)
    (f : Fresh m roots held p) (hself : m'.entry t i = .toTable p)
    (htable : (Entry.toTable p).isTable = true) (haddr : (Entry.toTable p).addr = p)
    (hother : ∀ u, m.Owned u → ∀ j < 512, u ≠ t ∨ j ≠ i → m'.entry u j = m.entry u j)
    {r : PhysAddr} (hroot' : r ∈ roots) (path' : List Nat) (u : PhysAddr) :
    Reaches m' r path' u ↔ Reaches m r path' u ∨ r = root ∧ path' = i :: path ∧ u = p := by
  have hold : ∀ path' u, Reaches m r path' u → Reaches m' r path' u := by
    intro path' u hu
    induction hu with
    | root => exact Reaches.root
    | link hu hlt hj htab ih =>
      rename_i path'' u j
      have he : m'.entry u j = m.entry u j := by
        refine hother u (h.owned r hroot' path'' u hu) j hj ?_
        by_contra hno
        rw [not_or, not_not, not_not] at hno
        rw [hno.1, hno.2, hempty] at htab
        cases htab
      rw [← he] at htab ⊢
      exact ih.link hlt hj htab
  constructor
  · intro hu
    induction hu with
    | root => exact Or.inl Reaches.root
    | link hu hlt hj htab ih =>
      rename_i path'' u j
      rcases ih with hu' | ⟨-, -, rfl⟩
      · by_cases hsame : u = t ∧ j = i
        · obtain ⟨rfl, rfl⟩ := hsame
          obtain ⟨hrr, hpath⟩ := h.unique r hroot' root hroot path'' path u hu' hr
          exact Or.inr ⟨hrr, by rw [hpath], by rw [hself, haddr]⟩
        · have he := hother u (h.owned r hroot' path'' u hu') j hj (by tauto)
          rw [he] at htab ⊢
          exact Or.inl (hu'.link hlt hj htab)
      · -- Nothing is linked from the new table yet.
        have hne : u ≠ t := fun he => f.not_reached root hroot path (he ▸ hr)
        rw [hother u f.owned j hj (Or.inl hne), f.empty j hj] at htab
        cases htab
  · rintro (hu | ⟨rfl, rfl, rfl⟩)
    · exact hold path' u hu
    · have hlink := (hold path t hr).link hlen hi (by rw [hself]; exact htable)
      rwa [hself, haddr] at hlink

/-- The entry of a reached table that links a fresh frame adds one path below one root. -/
theorem Sound.reaches_link (h : Sound m roots held) (hroot : root ∈ roots)
    (hr : Reaches m root path t) (hlen : path.length < 3) (hi : i < 512)
    (hempty : m.entry t i = .empty) (f : Fresh m roots held p)
    (hin : Installs m m' t i (.toTable p)) {r : PhysAddr} (hr' : r ∈ roots) (path' : List Nat)
    (u : PhysAddr) :
    Reaches m' r path' u ↔ Reaches m r path' u ∨ r = root ∧ path' = i :: path ∧ u = p := by
  have hc := h.consistent
  have ht := h.owned root hroot path t hr
  have hbound := h.num_lt_of_fresh f
  have haligned := f.owned.managed.aligned
  exact reaches_linked h hroot hr hlen hi hempty f (hin.entry_self hc.usable ht.managed hi)
    (Entry.isTable_toTable haligned hbound) (Entry.addr_toTable haligned hbound)
    (fun u hu j hj hne => hin.entry_of_ne hc.usable ht.managed hu.managed hi hj hne) hr' path' u

/-- The new table is empty, so no leaf is found through it. -/
theorem lookup_linked (h : Sound m roots held) (hroot : root ∈ roots) (hr : Reaches m root path t)
    (hlen : path.length < 3) {r : PhysAddr} (hr' : r ∈ roots)
    (hkey : ∀ path' u, Reaches m' r path' u ↔
      Reaches m r path' u ∨ r = root ∧ path' = i :: path ∧ u = p)
    (hother : ∀ u, m.Owned u → ∀ j < 512, u ≠ t ∨ j ≠ i → m'.entry u j = m.entry u j)
    (hnew : ∀ j < 512, m'.entry p j = .empty) (v : VirtAddr) : m'.lookup r v = m.lookup r v := by
  by_cases hv : ∃ u, Reaches m r (v.trail 3) u
  · obtain ⟨u, hu⟩ := hv
    have hne : u ≠ t := by
      rintro rfl
      have hpath := (h.unique r hr' root hroot _ path u hu hr).2
      rw [← hpath, VirtAddr.length_trail] at hlen
      omega
    rw [lookup_of_reaches ((hkey _ u).2 (Or.inl hu)), lookup_of_reaches hu,
      hother u (h.owned r hr' _ u hu) _ (v.slot_lt 3) (Or.inl hne)]
  · rw [lookup_of_not_reaches fun u hu => hv ⟨u, hu⟩]
    by_cases hv' : ∃ u, Reaches m' r (v.trail 3) u
    · obtain ⟨u, hu⟩ := hv'
      rcases (hkey _ u).1 hu with hu' | ⟨-, -, rfl⟩
      · exact absurd ⟨u, hu'⟩ hv
      · rw [lookup_of_reaches hu, hnew _ (v.slot_lt 3), Entry.isValid_empty]
        rfl
    · exact lookup_of_not_reaches fun u hu => hv' ⟨u, hu⟩

/-- Linking a fresh frame keeps the trees sound and every leaf as it is. -/
theorem Sound.linked (h : Sound m roots held) (hroot : root ∈ roots) (hr : Reaches m root path t)
    (hlen : path.length < 3) (hi : i < 512) (hempty : m.entry t i = .empty)
    (f : Fresh m roots held p) (hin : Installs m m' t i (.toTable p)) :
    Sound m' roots held ∧ Extends m m' roots := by
  have hc := h.consistent
  have ht := h.owned root hroot path t hr
  have htouch := hin.touches hc.usable ht.managed hi
  have hself := hin.entry_self hc.usable ht.managed hi
  have hother : ∀ u, m.Owned u → ∀ j < 512, u ≠ t ∨ j ≠ i → m'.entry u j = m.entry u j :=
    fun u hu j hj hne => hin.entry_of_ne hc.usable ht.managed hu.managed hi hj hne
  have htable := Entry.isTable_toTable f.owned.managed.aligned (h.num_lt_of_fresh f)
  have haddr := Entry.addr_toTable f.owned.managed.aligned (h.num_lt_of_fresh f)
  have hkey := fun r hr' => h.reaches_link hroot hr hlen hi hempty f hin (r := r) hr'
  have hpt : p ≠ t := fun he => f.not_reached root hroot path (he ▸ hr)
  have hnew : ∀ j < 512, m'.entry p j = .empty := by
    intro j hj
    rw [hother p f.owned j hj (Or.inl hpt)]
    exact f.empty j hj
  have howned : ∀ q, m.Owned q → m'.Owned q := fun q hq => (htouch.owned hc ht.managed).2 hq
  refine ⟨?_, ⟨fun r hr' path' u hu => (hkey r hr' path' u).2 (Or.inl hu),
    fun r hr' => lookup_linked h hroot hr hlen hr' (hkey r hr') hother hnew⟩⟩
  constructor
  case consistent => exact htouch.consistent hc ht.managed
  case narrow =>
    rw [hin.frames]
    exact h.narrow
  case owned =>
    intro r hr' path' u hu
    rcases (hkey r hr' path' u).1 hu with hu | ⟨-, -, rfl⟩
    · exact howned u (h.owned r hr' path' u hu)
    · exact howned u f.owned
  case inner =>
    intro r hr' path' u hu hlt j hj
    rcases (hkey r hr' path' u).1 hu with hu | ⟨-, -, rfl⟩
    · by_cases hsame : u = t ∧ j = i
      · rw [hsame.1, hsame.2, hself, haddr]
        exact Or.inr ⟨htable, rfl⟩
      · rw [hother u (h.owned r hr' path' u hu) j hj (by tauto)]
        exact h.inner r hr' path' u hu hlt j hj
    · exact Or.inl (hnew j hj)
  case outer =>
    intro r hr' path' u hu hlen' j hj
    rcases (hkey r hr' path' u).1 hu with hu | ⟨-, -, rfl⟩
    · have hne : u ≠ t := by
        rintro rfl
        have hpath := (h.unique r hr' root hroot path' path u hu hr).2
        rw [hpath] at hlen'
        omega
      rw [hother u (h.owned r hr' path' u hu) j hj (Or.inl hne)]
      exact h.outer r hr' path' u hu hlen' j hj
    · exact Or.inl (hnew j hj)
  case unique =>
    -- The new table is reached by no old path, and its own path is the only new one.
    intro r hr' r₂ hr₂ path' path₂ u hu hu₂
    rcases (hkey r hr' path' u).1 hu with hu | ⟨rfl, rfl, rfl⟩
    · rcases (hkey r₂ hr₂ path₂ u).1 hu₂ with hu₂ | ⟨rfl, rfl, rfl⟩
      · exact h.unique r hr' r₂ hr₂ path' path₂ u hu hu₂
      · exact absurd hu (f.not_reached r hr' path')
    · rcases (hkey r₂ hr₂ path₂ u).1 hu₂ with hu₂ | ⟨rfl, rfl, -⟩
      · exact absurd hu₂ (f.not_reached r₂ hr₂ path₂)
      · exact ⟨rfl, rfl⟩
  case not_held =>
    intro r hr' path' u hu
    rcases (hkey r hr' path' u).1 hu with hu | ⟨-, -, rfl⟩
    · exact h.not_held r hr' path' u hu
    · exact f.not_held
  case held_owned => exact fun q hq => howned q (h.held_owned q hq)

end Memory

end HighHalf
