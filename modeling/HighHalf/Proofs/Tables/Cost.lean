import HighHalf.Proofs.Frames.Effects
import HighHalf.Proofs.Tables.Passes

/-!
# What a range costs

A range takes one frame for each table on the way to its pages that is not there yet, and it
takes no other frame. A table is named by the slots that lead to it, so pages that share a table
name it once, whatever the passes look up and how often. Each step of the first pass that draws a
frame takes one name off the list of missing tables, and the pass succeeds when the list is empty.

## Main definitions

* `Frames.Pays`: some frames were paid, the parked ones first
* `Tables.missing`: those of some tables that are not there
* `Tables.needed`: how many tables a range needs that are not there
* `Tables.Fills`: each table that has come took one frame

## Main results

* `Tables.makeLeafTables_pays`: what the first pass over a range pays, or why it fails
* `Tables.writeLeaves_again`: leaves that are there already are written to no effect
* `Tables.mapRange_cost`: exactly when a range is mapped, and what it leaves of the frames
-/

namespace HighHalf

/-! ## Paying -/

namespace Frames

variable {f g h : Frames} {j k : Nat}

/-- `k` frames were paid: parked ones while there were any, and then free ones. -/
structure Pays (f g : Frames) (k : Nat) : Prop where
  enough : k ≤ f.waiting + f.free
  waiting : g.waiting = f.waiting - k
  free : g.free = f.free - (k - f.waiting)

theorem Pays.of_eq (hwaiting : g.waiting = f.waiting) (hfree : g.free = f.free) : Pays f g 0 :=
  ⟨Nat.zero_le _, hwaiting, by rw [hfree, Nat.zero_sub, Nat.sub_zero]⟩

theorem Pays.trans (a : Pays f g j) (b : Pays g h k) : Pays f h (j + k) := by
  obtain ⟨hj, hwaiting, hfree⟩ := a
  obtain ⟨hk, hwaiting', hfree'⟩ := b
  exact ⟨by omega, by omega, by omega⟩

end Frames

namespace Memory

variable {m m' : Memory} {root t p : PhysAddr} {path : List Nat}

/-- A table is paid with one frame. -/
theorem allocateTable_pays (h : Consistent m) (hrun : allocateTable m = .ok (some p) m') :
    m.frames.Pays m'.frames 1 := by
  have hwait := m.frames.waiting_eq
  have hwait' := m'.frames.waiting_eq
  rcases allocateTable_draws h with ⟨hpool, htake⟩ | ⟨q, m₁, hdraw, hdraws, -⟩
  · rw [htake] at hrun
    rcases allocate_takes h with ⟨m₁, hnone, -⟩ | ⟨q, m₁, hsome, htakes, -⟩
    · rw [hnone] at hrun
      cases hrun
    · rw [hsome] at hrun
      cases hrun
      have hfree : 0 < m.frames.free := by
        rw [h.free_eq, Finset.card_pos]
        exact ⟨_, mem_unmarked.2 ⟨(htakes.managed.index h.plan).2.1, htakes.unmarked⟩⟩
      have hleft : m'.frames.free = m.frames.free - 1 := by
        rw [htakes.frames]
        rfl
      rw [hpool, List.length_nil] at hwait
      rw [htakes.pool, hpool, List.length_nil] at hwait'
      exact ⟨by omega, by omega, by omega⟩
  · rw [hdraw] at hrun
    cases hrun
    have hfree : m'.frames.free = m.frames.free := by rw [hdraws.frames]
    rw [hdraws.pool, List.length_cons] at hwait
    exact ⟨by omega, by omega, by omega⟩

/-! ## Naming tables -/

/-- The table that is reached from `root` along a list of slots, if there is one. -/
def tableAt? (m : Memory) (root : PhysAddr) : List Nat → Option PhysAddr
  | [] => some root
  | i :: path =>
    match tableAt? m root path with
    | none => none
    | some t =>
      if path.length < 3 ∧ i < 512 ∧ (m.entry t i).isTable = true then some (m.entry t i).addr
      else none

theorem tableAt?_eq_some_iff : m.tableAt? root path = some t ↔ Reaches m root path t := by
  induction path generalizing t with
  | nil =>
    rw [tableAt?, Option.some.injEq]
    refine ⟨fun he => he ▸ Reaches.root, fun hr => ?_⟩
    cases hr
    rfl
  | cons i path ih =>
    rw [tableAt?]
    constructor
    · intro hsome
      cases habove : m.tableAt? root path with
      | none =>
        rw [habove] at hsome
        cases hsome
      | some t' =>
        rw [habove] at hsome
        obtain ⟨⟨hlen, hi, htable⟩, haddr⟩ := (Option.ite_none_right_eq_some).1 hsome
        rw [Option.some.injEq] at haddr
        rw [← haddr]
        exact (ih.1 habove).link hlen hi htable
    · intro hr
      cases hr with
      | link habove hlen hi htable =>
        rw [ih.2 habove]
        exact if_pos ⟨hlen, hi, htable⟩

theorem tableAt?_eq_none_iff : m.tableAt? root path = none ↔ ∀ t, ¬ Reaches m root path t := by
  rw [Option.eq_none_iff_forall_ne_some]
  exact forall_congr' fun t => not_congr tableAt?_eq_some_iff

end Memory

namespace Tables

open Memory

variable {m m' m'' : Memory} {root t u p : PhysAddr} {roots held : List PhysAddr}
  {path : List Nat} {start stop v : VirtAddr} {i j k n : Nat} {f : Flags}
  {W : Finset (List Nat)}

/-! ## The tables that a range needs -/

/-- The tables below a root on the way to `n` pages from `start` on: for each page one table of
levels 1, 2 and 3, named by the slots that lead to it. -/
def tablesOver (start : VirtAddr) (n : Nat) : Finset (List Nat) :=
  (Finset.range n ×ˢ Finset.range 3).image fun c => (pageOf start c.1).trail (c.2 + 1)

/-- Those of the tables `W` that are not there below `root`. -/
def missing (m : Memory) (root : PhysAddr) (W : Finset (List Nat)) : Finset (List Nat) :=
  W.filter fun path => m.tableAt? root path = none

/-- How many tables the pages from `start` up to `stop` need that are not there below `root`. -/
def needed (m : Memory) (root : PhysAddr) (start stop : VirtAddr) : Nat :=
  (missing m root (tablesOver start (pagesBetween start stop))).card

theorem mem_tablesOver :
    path ∈ tablesOver start n ↔ ∃ i < n, ∃ k < 3, (pageOf start i).trail (k + 1) = path := by
  simp only [tablesOver, Finset.mem_image, Finset.mem_product, Finset.mem_range, Prod.exists]
  constructor
  · rintro ⟨i, k, ⟨hi, hk⟩, rfl⟩
    exact ⟨i, hi, k, hk, rfl⟩
  · rintro ⟨i, hi, k, hk, rfl⟩
    exact ⟨i, k, ⟨hi, hk⟩, rfl⟩

theorem mem_missing : path ∈ missing m root W ↔ path ∈ W ∧ ∀ t, ¬ Reaches m root path t := by
  rw [missing, Finset.mem_filter, tableAt?_eq_none_iff]

theorem missing_congr (h : ∀ path t, Reaches m' root path t ↔ Reaches m root path t) :
    missing m' root W = missing m root W := by
  ext path
  simp only [mem_missing, h]

theorem firstPageIn_lt (hj : j < leafTables start n) : firstPageIn start j < n := by
  rw [leafTables] at hj
  rw [firstPageIn]
  split at hj <;> omega

theorem fresh_of_allocateTable (h : Sound m roots held)
    (hrun : allocateTable m = .ok (some p) m') : Fresh m' roots held p := by
  rcases allocateTable_spec h.consistent with
    ⟨m₁, hnone, -⟩ | ⟨q, m₁, hsome, hspares, hgrants⟩
  · cases hrun.symm.trans hnone
  · cases hrun.symm.trans hsome
    exact h.granted hspares hgrants

/-- Below a fresh root all tables are missing. -/
theorem needed_of_fresh (hf : Fresh m roots held root) :
    needed m root start stop = (tablesOver start (pagesBetween start stop)).card := by
  rw [needed, missing, Finset.filter_true_of_mem]
  intro path hpath
  obtain ⟨i, -, k, -, rfl⟩ := mem_tablesOver.1 hpath
  rw [tableAt?_eq_none_iff]
  intro t ht
  cases (ht.of_empty hf.empty).1

/-! ## One frame for each table -/

/-- Of the tables `W` no table has gone, and each one that has come was paid with a frame. -/
structure Fills (m m' : Memory) (root : PhysAddr) (W : Finset (List Nat)) : Prop where
  subset : missing m' root W ⊆ missing m root W
  pays : m.frames.Pays m'.frames ((missing m root W).card - (missing m' root W).card)

theorem Fills.trans (a : Fills m m' root W) (b : Fills m' m'' root W) : Fills m m'' root W where
  subset := b.subset.trans a.subset
  pays := by
    have hcard := Finset.card_le_card a.subset
    have hcard' := Finset.card_le_card b.subset
    have hpays := a.pays.trans b.pays
    rwa [Nat.sub_add_sub_cancel hcard hcard'] at hpays

/-- Where no table comes and none goes, none is paid. -/
theorem Fills.of_same (hreach : ∀ path t, Reaches m' root path t ↔ Reaches m root path t)
    (hpays : m.frames.Pays m'.frames 0) : Fills m m' root W := by
  have hsame : missing m' root W = missing m root W := missing_congr hreach
  refine ⟨hsame.subset, ?_⟩
  rwa [hsame, Nat.sub_self]

theorem Fills.refl (m : Memory) (root : PhysAddr) (W : Finset (List Nat)) : Fills m m root W :=
  .of_same (fun _ _ => Iff.rfl) (.of_eq rfl rfl)

theorem Fills.of_keeps (h : Sound m roots held) (hroot : root ∈ roots) (hkeeps : Keeps m m') :
    Fills m m' root W := by
  have hspares := hkeeps.spares h.consistent
  refine .of_same (fun _ _ => h.reaches_spares hspares hroot) (.of_eq ?_ hkeeps.free)
  rw [Frames.waiting, hkeeps.parked, hkeeps.drawn, Frames.waiting]

/-- A table that is made and linked is missing no more. -/
theorem Fills.of_linked (hmem : path ∈ W) (hnone : ∀ t, ¬ Reaches m root path t)
    (hreach : ∀ path' u, Reaches m' root path' u ↔ Reaches m root path' u ∨ path' = path ∧ u = p)
    (hpays : m.frames.Pays m'.frames 1) : Fills m m' root W := by
  have hmissing : path ∈ missing m root W := mem_missing.2 ⟨hmem, hnone⟩
  have herase : missing m' root W = (missing m root W).erase path := by
    ext path'
    rw [Finset.mem_erase, mem_missing, mem_missing]
    constructor
    · rintro ⟨hmem', hno⟩
      exact ⟨fun he => hno p ((hreach path' p).2 (Or.inr ⟨he, rfl⟩)), hmem',
        fun u hu => hno u ((hreach path' u).2 (Or.inl hu))⟩
    · rintro ⟨hne, hmem', hno⟩
      exact ⟨hmem', fun u hu => ((hreach path' u).1 hu).elim (hno u) fun hnew => hne hnew.1⟩
  have hpos := Finset.card_pos.2 ⟨path, hmissing⟩
  have hone : (missing m root W).card - ((missing m root W).card - 1) = 1 := by omega
  refine ⟨?_, ?_⟩
  · rw [herase]
    exact Finset.erase_subset path _
  · rwa [herase, Finset.card_erase_of_mem hmissing, hone]

/-! ## The first pass -/

/-- The next table on a way is missing exactly if the entry for it is empty. -/
theorem not_reaches_iff_empty (h : Sound m roots held) (hroot : root ∈ roots)
    (hr : Reaches m root (v.trail k) t) (hk : k < 3) :
    (∀ u, ¬ Reaches m root (v.trail (k + 1)) u) ↔ m.entry t (v.slot k) = .empty := by
  have hlen : (v.trail k).length < 3 := by rwa [VirtAddr.length_trail]
  constructor
  · intro hno
    refine (h.inner root hroot _ t hr hlen _ (v.slot_lt k)).resolve_right fun hlink => ?_
    exact hno _ (hr.link hlen (v.slot_lt k) hlink.1)
  · intro hempty u hu
    obtain ⟨t', ht', htable⟩ := hu.above
    rw [ht'.inj hr, hempty] at htable
    cases htable

/-- A missing table is made, linked and paid, or it stays missing because no frame is left. -/
theorem makeTable_fills (h : Sound m roots held) (hroot : root ∈ roots)
    (hr : Reaches m root (v.trail k) t) (hk : k < 3) (hempty : m.entry t (v.slot k) = .empty)
    (hmem : v.trail (k + 1) ∈ W) :
    (∃ m', allocateTable m = .ok none m' ∧ Fills m m' root W ∧
        v.trail (k + 1) ∈ missing m' root W) ∨
      ∃ p m₁ m₂, allocateTable m = .ok (some p) m₁ ∧
        (liftM (link (entryPlace m.frames.window t (v.slot k)) (v.slot k) p) : MemoryM Unit) m₁
          = .ok () m₂ ∧
        Sound m₂ roots held ∧ Reaches m₂ root (v.trail (k + 1)) p ∧ Fills m m₂ root W := by
  have hlen : (v.trail k).length < 3 := by rwa [VirtAddr.length_trail]
  have hnone := (not_reaches_iff_empty h hroot hr hk).2 hempty
  obtain ⟨m', halloc, -, -, hreach, hsupply⟩ | ⟨p, m₁, m₂, halloc, hlink, hgrows, -, hreach, -⟩ :=
    makeTable_reaches h hroot hr hlen (v.slot_lt k) hempty
  · have hsupply' := supply_of_none h.consistent halloc
    rw [Memory.supply] at hsupply hsupply'
    exact Or.inl ⟨m', halloc, .of_same hreach (.of_eq (by omega) (by omega)),
      mem_missing.2 ⟨hmem, fun u hu => hnone u ((hreach _ u).1 hu)⟩⟩
  · have hframes : m₂.frames = m₁.frames := by
      obtain ⟨b, -, hm₂⟩ := exists_of_onBoard hlink
      rw [hm₂]
    have hpays : m.frames.Pays m₂.frames 1 := by
      rw [hframes]
      exact allocateTable_pays h.consistent halloc
    exact Or.inr ⟨p, m₁, m₂, halloc, hlink, hgrows.sound,
      (hreach (v.trail (k + 1)) p).2 (Or.inr ⟨rfl, rfl⟩), .of_linked hmem hnone hreach hpays⟩

/-- Going down pays for the tables that it makes. If it fails, one of them is still missing. -/
theorem descendMaking_fills {r : Except MapError PhysAddr} (h : Sound m roots held)
    (hroot : root ∈ roots) (hr : Reaches m root (v.trail k) t) (hk : k + n ≤ 3)
    (hW : ∀ l, k ≤ l → l < k + n → v.trail (l + 1) ∈ W)
    (hrun : (descendMaking v t k n).run m = .ok r m') :
    Fills m m' root W ∧ ∀ e, r = .error e → (missing m' root W).Nonempty := by
  induction n generalizing m k t with
  | zero =>
    have hdone : (descendMaking v t k 0).run m = .ok (.ok t) m := rfl
    rw [hdone] at hrun
    cases hrun
    exact ⟨.refl _ root W, nofun⟩
  | succ n ih =>
    have hlen : (v.trail k).length < 3 := by
      rw [VirtAddr.length_trail]
      omega
    rcases h.inner root hroot _ t hr hlen _ (v.slot_lt k) with hempty | ⟨htable, -⟩
    · obtain ⟨m₁, halloc, hfills, hleft⟩ | ⟨p, m₁, m₂, halloc, hlink, hsound, hnew, hfills⟩ :=
        makeTable_fills h hroot hr (by omega) hempty (hW k (Nat.le_refl k) (by omega))
      · cases (run_descendMaking_missed hempty halloc).symm.trans hrun
        exact ⟨hfills, fun _ _ => ⟨_, hleft⟩⟩
      · -- The line of the log that follows changes neither frames nor tables.
        have hkeeps := keeps_noted m₂ .trace .tables
          s!"L{k}[{v.slot k}] -> new table {p} for {v}"
        obtain ⟨hgrows, -⟩ := grows_spares hsound (hkeeps.spares hsound.consistent)
        have hrest := (run_descendMaking_made hempty halloc hlink rfl).symm.trans hrun
        obtain ⟨hfills', hleft⟩ := ih (k := k + 1) hgrows.sound
          (hgrows.reaches root hroot _ p hnew) (by omega)
          (fun l hlo hhi => hW l (by omega) (by omega)) hrest
        exact ⟨(hfills.trans (.of_keeps hsound hroot hkeeps)).trans hfills', hleft⟩
    · have hlink := hr.link hlen (v.slot_lt k) htable
      rw [run_descendMaking_table htable] at hrun
      exact ih (k := k + 1) h hlink (by omega) (fun l hlo hhi => hW l (by omega) (by omega)) hrun

theorem makeLeafTables_fills {r : Except MapError Unit} (h : Sound m roots held)
    (hroot : root ∈ roots)
    (hW : ∀ k, j ≤ k → k < j + n → ∀ l < 3, (pageOf start (firstPageIn start k)).trail (l + 1) ∈ W)
    (hrun : (makeLeafTables root start j n).run m = .ok r m') :
    Fills m m' root W ∧ ∀ e, r = .error e → (missing m' root W).Nonempty := by
  induction n generalizing m j with
  | zero =>
    have hdone : (makeLeafTables root start j 0).run m = .ok (.ok ()) m := rfl
    rw [hdone] at hrun
    cases hrun
    exact ⟨.refl _ root W, nofun⟩
  | succ n ih =>
    obtain ⟨r₁, m₁, hfirst, hgrows, -, -⟩ :=
      makeLeafTable_spec (pageOf start (firstPageIn start j)) h hroot
    obtain ⟨hfills, hleft⟩ := descendMaking_fills (k := 0) (W := W) h hroot Reaches.root
      (Nat.le_refl 3) (fun l _ hl => hW j (Nat.le_refl j) (by omega) l (by omega)) hfirst
    rw [makeLeafTables] at hrun
    cases r₁ with
    | error e =>
      rw [run_bindE_fail hfirst] at hrun
      cases hrun
      exact ⟨hfills, fun _ _ => hleft e rfl⟩
    | ok t =>
      rw [run_bindE_ok hfirst] at hrun
      obtain ⟨hfills', hleft'⟩ :=
        ih hgrows.sound (fun k hlo hhi => hW k (by omega) (by omega)) hrun
      exact ⟨hfills.trans hfills', hleft'⟩

/-- The first pass pays for all tables that are missing, or it uses all frames up before. -/
theorem makeLeafTables_pays (start : VirtAddr) (n : Nat) (h : Sound m roots held)
    (hroot : root ∈ roots) :
    ∃ r m', (makeLeafTables root start 0 (leafTables start n)).run m = .ok r m' ∧
      Grows m m' roots held ∧
      match r with
      | .ok _ => m.frames.Pays m'.frames (missing m root (tablesOver start n)).card
      | .error e => e = .outOfFrames ∧ m.supply < (missing m root (tablesOver start n)).card ∧
          m'.supply = 0 := by
  obtain ⟨r, m', hrun, hgrows, -, hmade⟩ :=
    makeLeafTables_spec start 0 (leafTables start n) h hroot
  refine ⟨r, m', hrun, hgrows, ?_⟩
  obtain ⟨⟨hsubset, hpays⟩, hleft⟩ := makeLeafTables_fills (W := tablesOver start n) h hroot
    (fun k _ hk l hl => mem_tablesOver.2 ⟨_, firstPageIn_lt (by omega), l, hl, rfl⟩) hrun
  cases r with
  | ok _ =>
    -- Every page has its leaf table now, and so all tables above it.
    have hall : missing m' root (tablesOver start n) = ∅ := by
      refine Finset.eq_empty_of_forall_notMem fun path hpath => ?_
      obtain ⟨hmem, hno⟩ := mem_missing.1 hpath
      obtain ⟨i, hi, l, hl, rfl⟩ := mem_tablesOver.1 hmem
      obtain ⟨u, hu⟩ := reaches_of_firstPass h hroot hrun hi
      rw [show 3 = l + 1 + (2 - l) by omega] at hu
      obtain ⟨t, ht⟩ := hu.upTo
      exact hno t ht
    rwa [hall, Finset.card_empty, Nat.sub_zero] at hpays
  | error e =>
    obtain ⟨he, -, hnone⟩ := hmade
    have hcard := Finset.card_le_card hsubset
    have hpos := Finset.card_pos.2 (hleft e rfl)
    have henough := hpays.enough
    have hwaiting := hpays.waiting
    have hfree := hpays.free
    rw [Memory.supply] at hnone
    exact ⟨he, by rw [Memory.supply]; omega, by rw [Memory.supply]; omega⟩

/-! ## Once more -/

/-- The first pass does nothing where it finds every table. -/
theorem run_makeLeafTables_of_reaches
    (hall : ∀ k, j ≤ k → k < j + n →
      ∃ u, Reaches m root ((pageOf start (firstPageIn start k)).trail 3) u) :
    (makeLeafTables root start j n).run m = .ok (.ok ()) m := by
  induction n generalizing j with
  | zero => rfl
  | succ n ih =>
    obtain ⟨u, hu⟩ := hall j (Nat.le_refl j) (by omega)
    rw [makeLeafTables, run_bindE_ok (run_makeLeafTable_of_reaches hu)]
    exact ih fun k hlo hhi => hall k (by omega) (by omega)

theorem isLeaf_leafOf (hf : Entry.Complete f) : (leafOf p f).isLeaf = true :=
  Entry.isLeaf_toLeaf hf

/-- A page with a leaf has a leaf table. -/
theorem reaches_of_leaf (hf : Entry.Complete f) (hleaf : m.lookup root v = leafOf p f) :
    ∃ t, Reaches m root (v.trail 3) t := by
  by_contra hno
  have hempty := isLeaf_leafOf (p := p) hf
  rw [← hleaf, lookup_of_not_reaches fun t ht => hno ⟨t, ht⟩] at hempty
  cases hempty

/-- Writing the leaf that is there leaves RAM as it is. -/
theorem mapPage_again (h : Sound m roots held) (hroot : root ∈ roots)
    (hr : Reaches m root (v.trail 3) t) (hv : v.aligned = true) (hp : p.aligned = true)
    (hf : Entry.Complete f) (hleaf : m.lookup root v = leafOf p f) :
    ∃ b, (Memory.request (mapPage m.frames.window t v p f)).run m =
      .ok (.ok ()) { m with board := b } ∧ b.ram = m.board.ram := by
  have ht : t.aligned = true := (h.owned root hroot _ t hr).aligned
  rcases run_mapPage t v p f with ⟨e, -, hno⟩ | ⟨-, hrun⟩
  · exact absurd ⟨hv, hp, ht, hf⟩ hno
  · refine ⟨_, run_request (hrun ..), ?_⟩
    have hentry : m.entry t (v.slot 3) = leafOf p f := by
      rw [lookup_of_reaches hr] at hleaf
      split at hleaf
      · exact hleaf
      · have hempty := isLeaf_leafOf (p := p) hf
        rw [← hleaf] at hempty
        cases hempty
    have hword : m.board.ram.word (entryPlace m.frames.window t (v.slot 3)) = (leafOf p f).raw :=
      congrArg Entry.raw hentry
    rw [Board.ram_installed, ← hword, Ram.setWord_word]

/-- A second pass over leaves that are there leaves RAM as it is. -/
theorem writeLeaves_again (h : Sound m roots held) (hroot : root ∈ roots)
    (hs : start.num % 4096 = 0) (hp : p.num % 4096 = 0) (hf : Entry.Complete f)
    (hroom : p.num + 4096 * (i + n) ≤ 2 ^ 64)
    (hleaves : ∀ k, i ≤ k → k < i + n →
      m.lookup root (pageOf start k) = leafOf (p.up (4096 * k)) f)
    (ht : i ≠ 0 → Reaches m root ((pageOf start (i - 1)).trail 3) t) :
    ∃ b, (writeLeaves root start p f t i n).run m = .ok (.ok ()) { m with board := b } ∧
      b.ram = m.board.ram := by
  induction n generalizing m i t with
  | zero => exact ⟨m.board, rfl, rfl⟩
  | succ n ih =>
    have hleaf := hleaves i (Nat.le_refl i) (by omega)
    obtain ⟨u, hu⟩ := reaches_of_leaf hf hleaf
    rw [writeLeaves_succ, run_bindE_ok (run_leafTableOf hu ht)]
    rcases run_frameOf hp i m with ⟨hframe, hup⟩ | ⟨-, hbig⟩
    · rw [run_bindE_ok hframe, run_bindE_ok (run_getE m)]
      obtain ⟨b₁, hrun₁, hram₁⟩ := mapPage_again h hroot hu (aligned_pageOf hs i) hup hf hleaf
      rw [run_bindE_ok hrun₁]
      -- The trees and their leaves are what they were.
      have hspares := (keeps_board hram₁).spares h.consistent
      obtain ⟨hgrows, hsame⟩ := grows_spares h hspares
      obtain ⟨b, hrun, hram⟩ := ih (i := i + 1) hgrows.sound (by omega)
        (fun k hlo hhi => (hsame root hroot _).trans (hleaves k (by omega) (by omega)))
        fun _ => hgrows.reaches root hroot _ u hu
      exact ⟨b, hrun, hram.trans hram₁⟩
    · omega

/-- A range that is mapped already is mapped again at no cost: the store stays as it is with all
its counters, and so does RAM. -/
theorem mapRange_again (h : Sound m roots held) (hroot : root ∈ roots)
    (hask : Proper start stop p f) (hroom : p.num + (stop.num - start.num) ≤ 2 ^ 48)
    (hleaves : ∀ k < pagesBetween start stop,
      m.lookup root (pageOf start k) = leafOf (p.up (4096 * k)) f) :
    ∃ b, (mapRange root start stop p f).run m =
      .ok (.ok (pagesBetween start stop)) { m with board := b } ∧ b.ram = m.board.ram := by
  have hpages := pagesBetween_eq hask.le
  have hfirst : (makeLeafTables root start 0
      (leafTables start (pagesBetween start stop))).run m = .ok (.ok ()) m :=
    run_makeLeafTables_of_reaches fun k _ hk =>
      reaches_of_leaf hask.flags (hleaves _ (firstPageIn_lt (by omega)))
  obtain ⟨b, hsecond, hram⟩ := writeLeaves_again (t := root) (i := 0)
    (n := pagesBetween start stop) h hroot hask.start_aligned hask.frame_aligned hask.flags
    (by omega) (fun k _ hk => hleaves k (by omega)) fun h0 => absurd rfl h0
  refine ⟨(({ m with board := b } : Memory).noted .trace .tables
    s!"mapped [{start}..{stop}) -> {p} ({pagesBetween start stop} pages)").board, ?_, hram⟩
  rw [run_mapRange_proper root hask m]
  exact (run_bindE_ok hfirst).trans ((run_bindE_ok hsecond).trans (run_bindE_ok rfl))

/-! ## The whole range -/

/-- A range that was mapped shows its leaves page by page. -/
theorem lookup_of_mapRange (h : Sound m roots held) (hroot : root ∈ roots)
    (hhalf : stop.num ≤ 2 ^ 47 ∨ 2 ^ 64 - 2 ^ 47 ≤ start.num)
    (hrun : (mapRange root start stop p f).run m = .ok (.ok n) m') :
    Sound m' roots held ∧
      ∀ k < n, m'.lookup root (pageOf start k) = leafOf (p.up (4096 * k)) f := by
  have hspec := mapRange_spec start stop p f h hroot
  rw [hrun] at hspec
  obtain ⟨hgrows, hask, hn, -, hlookup⟩ := hspec
  have hle := hask.le
  have hsa := hask.start_aligned
  have hso := hask.stop_aligned
  have hlt := stop.num_lt
  rw [pagesBetween_eq hle] at hn
  have hlen : stop.num = start.num + 4096 * n := by omega
  have hcovers : Covers start n :=
    hhalf.imp (fun hlow => by omega) fun hhigh => ⟨hhigh, by omega⟩
  refine ⟨hgrows.sound, fun k hk => ?_⟩
  rw [hlookup root hroot, if_pos rfl]
  exact painted_page hsa hcovers hk (Nat.zero_lt_succ _) _

/-- With a frame for every missing table the range is mapped, and those frames are paid. -/
theorem mapRange_of_enough (h : Sound m roots held) (hroot : root ∈ roots)
    (hask : Proper start stop p f) (hhalf : stop.num ≤ 2 ^ 47 ∨ 2 ^ 64 - 2 ^ 47 ≤ start.num)
    (hroom : p.num + (stop.num - start.num) ≤ 2 ^ 48)
    (henough : needed m root start stop ≤ m.supply) :
    ∃ m', (mapRange root start stop p f).run m = .ok (.ok (pagesBetween start stop)) m' ∧
      m.frames.Pays m'.frames (needed m root start stop) ∧
      ∃ b, (mapRange root start stop p f).run m' =
        .ok (.ok (pagesBetween start stop)) { m' with board := b } ∧ b.ram = m'.board.ram := by
  obtain ⟨r, m₁, hfirst, -, hpaid⟩ :=
    makeLeafTables_pays start (pagesBetween start stop) h hroot
  rcases r with e | _
  · obtain ⟨-, hshort, -⟩ := hpaid
    rw [needed] at henough
    omega
  · obtain ⟨m', hrun, hframes⟩ := mapRange_of_firstPass h hroot hask hroom hfirst
    obtain ⟨hsound, hleaves⟩ := lookup_of_mapRange h hroot hhalf hrun
    refine ⟨m', hrun, ?_, mapRange_again hsound hroot hask hroom hleaves⟩
    rw [hframes]
    exact hpaid

/-- With fewer frames than missing tables the range is not mapped, and all frames are used. -/
theorem mapRange_of_short (h : Sound m roots held) (hroot : root ∈ roots)
    (hask : Proper start stop p f) (hshort : m.supply < needed m root start stop) :
    ∃ m', (mapRange root start stop p f).run m = .ok (.error .outOfFrames) m' ∧
      m'.supply = 0 := by
  obtain ⟨r, m₁, hfirst, -, hpaid⟩ :=
    makeLeafTables_pays start (pagesBetween start stop) h hroot
  rcases r with e | _
  · obtain ⟨rfl, -, hnone⟩ := hpaid
    exact ⟨m₁, (run_mapRange_proper root hask m).trans (run_bindE_fail hfirst), hnone⟩
  · have henough := hpaid.enough
    rw [Memory.supply, needed] at hshort
    omega

/-- What mapping a range costs. It is mapped exactly if the parked and the free frames are enough
for the tables that it needs and that are not there; it takes that many frames, the parked ones
first, and mapping it again takes none and leaves RAM as it is. Otherwise no frame is left. -/
theorem mapRange_cost (h : Sound m roots held) (hroot : root ∈ roots)
    (hask : Proper start stop p f) (hhalf : stop.num ≤ 2 ^ 47 ∨ 2 ^ 64 - 2 ^ 47 ≤ start.num)
    (hroom : p.num + (stop.num - start.num) ≤ 2 ^ 48) :
    ((∃ n m', (mapRange root start stop p f).run m = .ok (.ok n) m') ↔
      needed m root start stop ≤ m.frames.waiting + m.frames.free) ∧
    (needed m root start stop ≤ m.frames.waiting + m.frames.free →
      ∃ m', (mapRange root start stop p f).run m = .ok (.ok (pagesBetween start stop)) m' ∧
        m.frames.Pays m'.frames (needed m root start stop) ∧
        ∃ b, (mapRange root start stop p f).run m' =
          .ok (.ok (pagesBetween start stop)) { m' with board := b } ∧ b.ram = m'.board.ram) ∧
    (m.frames.waiting + m.frames.free < needed m root start stop →
      ∃ m', (mapRange root start stop p f).run m = .ok (.error .outOfFrames) m' ∧
        m'.frames.waiting = 0 ∧ m'.frames.free = 0) := by
  have hsupply : m.supply = m.frames.waiting + m.frames.free := Nat.add_comm _ _
  have henough := mapRange_of_enough h hroot hask hhalf hroom
  have hshort := mapRange_of_short h hroot hask
  rw [hsupply] at henough hshort
  refine ⟨⟨fun ⟨n, m', hrun⟩ => ?_, fun hle => ?_⟩, henough, fun hlt => ?_⟩
  · by_contra hlt
    obtain ⟨m₁, hfail, -⟩ := hshort (Nat.lt_of_not_le hlt)
    rw [hrun] at hfail
    cases hfail
  · obtain ⟨m', hrun, -⟩ := henough hle
    exact ⟨_, m', hrun⟩
  · obtain ⟨m', hfail, hnone⟩ := hshort hlt
    rw [Memory.supply] at hnone
    exact ⟨m', hfail, by omega, by omega⟩

/-- Two pages on both sides of a boundary between leaf tables. In the small store with its fresh
root they need four tables, which are paid. In the crowded one the root took the only frame. -/
theorem mapRange_cost_sample :
    (∃ m₀ root m₁ m₂, Memory.setup sampleImage sample = .ok (.ok ()) m₀ ∧
      allocateTable m₀ = .ok (some root) m₁ ∧ needed m₁ root ⟨0x1FF000⟩ ⟨0x201000⟩ = 4 ∧
      (mapRange root ⟨0x1FF000⟩ ⟨0x201000⟩ ⟨0x40010000⟩ .data).run m₁ = .ok (.ok 2) m₂ ∧
      m₁.frames.Pays m₂.frames 4 ∧
      ∃ b, (mapRange root ⟨0x1FF000⟩ ⟨0x201000⟩ ⟨0x40010000⟩ .data).run m₂ =
        .ok (.ok 2) { m₂ with board := b } ∧ b.ram = m₂.board.ram) ∧
    ∃ m₀ root m₁ m₂, Memory.setup sampleImage crowded = .ok (.ok ()) m₀ ∧
      allocateTable m₀ = .ok (some root) m₁ ∧ needed m₁ root ⟨0x1FF000⟩ ⟨0x201000⟩ = 4 ∧
      (mapRange root ⟨0x1FF000⟩ ⟨0x201000⟩ ⟨0x40010000⟩ .data).run m₁ =
        .ok (.error .outOfFrames) m₂ ∧ m₂.frames.waiting = 0 ∧ m₂.frames.free = 0 := by
  have hask : Proper ⟨0x1FF000⟩ ⟨0x201000⟩ ⟨0x40010000⟩ .data :=
    ⟨by decide, by decide, by decide, by decide, by decide, by decide⟩
  have hpages : pagesBetween ⟨0x1FF000⟩ ⟨0x201000⟩ = 2 := by decide
  have hfour : ∀ {m : Memory} {root : PhysAddr}, Fresh m [] [] root →
      needed m root ⟨0x1FF000⟩ ⟨0x201000⟩ = 4 := by
    intro m root hfresh
    rw [needed_of_fresh hfresh, hpages]
    decide
  constructor
  · obtain ⟨m₀, hsetup, hset, -, hsupply₀, htop⟩ := setUp_sample
    have hnarrow : m₀.frames.region.start.num + 4096 * m₀.frames.total ≤ 2 ^ 48 := by
      rw [htop]
      decide
    obtain ⟨root, m₁, halloc, hsound, -, hsupply⟩ := firstRoot_spec hset hnarrow (by omega)
    have hneeded := hfour (fresh_of_allocateTable (sound_of_setUp hset hnarrow) halloc)
    obtain ⟨-, henough, -⟩ := mapRange_cost hsound (List.mem_singleton.2 rfl) hask
      (Or.inl (by decide)) (by decide)
    rw [Memory.supply] at hsupply
    rw [hneeded, hpages] at henough
    obtain ⟨m₂, hrun, hpays, hagain⟩ := henough (by omega)
    exact ⟨m₀, root, m₁, m₂, hsetup, halloc, hneeded, hrun, hpays, hagain⟩
  · obtain ⟨m₀, hsetup, hset, hsingle, htop⟩ := setUp_crowded
    have hnarrow : m₀.frames.region.start.num + 4096 * m₀.frames.total ≤ 2 ^ 48 := by
      rw [htop]
      decide
    have hfree := hset.free
    have hsupply₀ : m₀.supply = m₀.frames.free := by
      rw [Memory.supply, Frames.waiting, hset.parked, Array.size_empty, Nat.zero_sub, Nat.add_zero]
    obtain ⟨root, m₁, halloc, hsound, -, hsupply⟩ := firstRoot_spec hset hnarrow (by omega)
    have hneeded := hfour (fresh_of_allocateTable (sound_of_setUp hset hnarrow) halloc)
    obtain ⟨-, -, hshort⟩ := mapRange_cost hsound (List.mem_singleton.2 rfl) hask
      (Or.inl (by decide)) (by decide)
    rw [Memory.supply] at hsupply
    obtain ⟨m₂, hrun, hwaiting, hleft⟩ := hshort (by omega)
    exact ⟨m₀, root, m₁, m₂, hsetup, halloc, hneeded, hrun, hwaiting, hleft⟩

end Tables

end HighHalf
