import HighHalf.Proofs.Tables.Ranges

/-!
# The two passes over a range

The first pass over a range makes its leaf tables, one request for each 2 MiB that the range
touches. The second pass goes over every page and looks a leaf table up wherever one begins. All
it looks up was made by the first pass, so it draws no frame and cannot fail: a range that fails
does so before its first leaf.

## Main results

* `Tables.starts_iff`: the first pass visits the pages that begin a leaf table, and no others
* `Tables.writeLeaves_total`: the second pass succeeds where all leaf tables are there
* `Tables.mapRange_all_or_nothing`: a range that fails leaves every leaf as it was
-/

namespace HighHalf

/-- Addresses of one 2 MiB block have the same leaf table. -/
theorem VirtAddr.trail_three_of_num {u v : VirtAddr}
    (h : u.num % 2 ^ 48 / 2 ^ 21 = v.num % 2 ^ 48 / 2 ^ 21) : u.trail 3 = v.trail 3 := by
  simp only [trail, List.cons.injEq, and_true, slot, page_eq]
  norm_num at h ⊢
  omega

namespace Tables

open Memory

variable {m m' m₁ : Memory} {root t u p q : PhysAddr} {roots held : List PhysAddr}
  {start stop v : VirtAddr} {i j k n : Nat} {f : Flags}

/-! ## Pages and their leaf tables -/

/-- The number of the leaf table of a range from `start` that page `i` lies in. -/
def tableNumber (start : VirtAddr) (i : Nat) : Nat := (start.slot 3 + i) / 512

theorem slot_pageOf (start : VirtAddr) (i : Nat) :
    (pageOf start i).slot 3 = (start.slot 3 + i) % 512 := by
  have hmod := num_pageOf_mod start i
  simp only [VirtAddr.slot, VirtAddr.page_eq]
  norm_num
  omega

/-- A page has the leaf table of the first page in it. -/
theorem trail_pageOf (start : VirtAddr) (i : Nat) :
    (pageOf start i).trail 3 =
      (pageOf start (firstPageIn start (tableNumber start i))).trail 3 := by
  have hpage := num_pageOf_mod start i
  have hfirst := num_pageOf_mod start (firstPageIn start (tableNumber start i))
  have hslot : start.slot 3 = start.num / 4096 % 512 := by
    rw [VirtAddr.slot, VirtAddr.page_eq]
    norm_num
  refine VirtAddr.trail_three_of_num ?_
  rw [firstPageIn, tableNumber] at *
  omega

theorem tableNumber_lt (hi : i < n) : tableNumber start i < leafTables start n := by
  rw [tableNumber, leafTables, if_neg (by omega)]
  omega

/-- The pages that begin a leaf table are the ones that the first pass visits. -/
theorem starts_iff (hi : i < n) :
    i = 0 ∨ (pageOf start i).slot 3 = 0 ↔ ∃ j < leafTables start n, i = firstPageIn start j := by
  have hlt := start.slot_lt 3
  rw [slot_pageOf, leafTables, if_neg (by omega)]
  constructor
  · intro hbegins
    refine ⟨tableNumber start i, by rw [tableNumber]; omega, ?_⟩
    rw [firstPageIn, tableNumber]
    omega
  · rintro ⟨j, -, rfl⟩
    rw [firstPageIn]
    omega

/-! ## The first pass -/

/-- The way down goes along the tables that are there, and does nothing on it. -/
theorem run_descendMaking_along (ht : Reaches m root (v.trail k) t)
    (hu : Reaches m root (v.trail (k + j)) u) (hk : k + j ≤ 3) (n : Nat) :
    (descendMaking v t k (j + n)).run m = (descendMaking v u (k + j) n).run m := by
  induction j generalizing k t with
  | zero => rw [ht.inj hu, Nat.zero_add, Nat.add_zero]
  | succ j ih =>
    rw [show k + (j + 1) = k + 1 + j by omega] at hu ⊢
    obtain ⟨t₁, ht₁⟩ := hu.upTo
    obtain ⟨t₀, ht₀, htable⟩ := ht₁.above
    rw [← ht.inj ht₀] at htable
    have hlen : (v.trail k).length < 3 := by
      rw [VirtAddr.length_trail]
      omega
    rw [show j + 1 + n = j + n + 1 by omega, run_descendMaking_table htable]
    exact ih (ht.link hlen (v.slot_lt k) htable) hu (by omega)

/-- Where the walk already ends in a leaf table, it is found and nothing is done. -/
theorem run_descendMaking_of_reaches (ht : Reaches m root (v.trail k) t)
    (hu : Reaches m root (v.trail (k + n)) u) (hk : k + n ≤ 3) :
    (descendMaking v t k n).run m = .ok (.ok u) m :=
  run_descendMaking_along ht hu hk 0

theorem run_makeLeafTable_of_reaches (hu : Reaches m root (v.trail 3) u) :
    (makeLeafTable root v).run m = .ok (.ok u) m :=
  run_descendMaking_of_reaches (k := 0) Reaches.root hu (Nat.le_refl 3)

/-- A first pass that succeeds has made every leaf table it went for. -/
theorem reaches_of_makeLeafTables (h : Sound m roots held) (hroot : root ∈ roots)
    (hrun : (makeLeafTables root start j n).run m = .ok (.ok ()) m') (hlo : j ≤ k)
    (hhi : k < j + n) :
    ∃ t, Reaches m' root ((pageOf start (firstPageIn start k)).trail 3) t := by
  induction n generalizing m j with
  | zero => omega
  | succ n ih =>
    rw [makeLeafTables] at hrun
    obtain ⟨r, m₁, hfirst, hgrows, -, hmade⟩ :=
      makeLeafTable_spec (pageOf start (firstPageIn start j)) h hroot
    cases r with
    | error e =>
      rw [run_bindE_fail hfirst] at hrun
      cases hrun
    | ok t =>
      rw [run_bindE_ok hfirst] at hrun
      by_cases hk : k = j
      · -- The tables made later leave this one in place.
        obtain ⟨r, m₂, hrest, hgrows', -, -⟩ :=
          makeLeafTables_spec start (j + 1) n hgrows.sound hroot
        rw [hrest] at hrun
        cases hrun
        rw [hk]
        exact ⟨t, hgrows'.reaches root hroot _ t hmade.1⟩
      · exact ih hgrows.sound hrun (by omega) (by omega)

/-- After the first pass every page of the range has its leaf table. -/
theorem reaches_of_firstPass (h : Sound m roots held) (hroot : root ∈ roots)
    (hrun : (makeLeafTables root start 0 (leafTables start n)).run m = .ok (.ok ()) m')
    (hi : i < n) : ∃ t, Reaches m' root ((pageOf start i).trail 3) t := by
  have hnumber : tableNumber start i < leafTables start n := tableNumber_lt hi
  rw [trail_pageOf]
  exact reaches_of_makeLeafTables h hroot hrun (Nat.zero_le _) (by omega)

/-! ## The second pass -/

theorem frames_of_request {ε α : Type} {x : ExceptT ε BoardM α} {r : Except ε α}
    (hrun : (Memory.request x).run m = .ok r m') : m'.frames = m.frames := by
  obtain ⟨b, -, rfl⟩ := exists_of_onBoard (x := x.run) hrun
  rfl

/-- The leaf table of a page is at hand where all leaf tables are there. -/
theorem run_leafTableOf (hu : Reaches m root ((pageOf start i).trail 3) u)
    (ht : i ≠ 0 → Reaches m root ((pageOf start (i - 1)).trail 3) t) :
    (if i = 0 || (pageOf start i).slot 3 = 0 then makeLeafTable root (pageOf start i)
      else pure t : MapM PhysAddr).run m = .ok (.ok u) m := by
  by_cases hnew : i = 0 ∨ (pageOf start i).slot 3 = 0
  · rw [if_pos (by simpa using hnew)]
    exact run_makeLeafTable_of_reaches hu
  · rw [if_neg (by simpa using hnew)]
    rw [not_or] at hnew
    obtain ⟨i, rfl⟩ := Nat.exists_eq_succ_of_ne_zero hnew.1
    have hkept := ht hnew.1
    rw [Nat.succ_eq_add_one, Nat.add_sub_cancel, ← trail_pageOf_succ hnew.2] at hkept
    rw [hkept.inj hu]
    rfl

/-- Where every page has its leaf table the second pass succeeds, and it draws no frame. -/
theorem writeLeaves_total (h : Sound m roots held) (hroot : root ∈ roots)
    (hs : start.num % 4096 = 0) (hp : p.num % 4096 = 0) (hf : Entry.Complete f)
    (hroom : p.num + 4096 * (i + n) ≤ 2 ^ 64)
    (htables : ∀ k, i ≤ k → k < i + n → ∃ u, Reaches m root ((pageOf start k).trail 3) u)
    (ht : i ≠ 0 → Reaches m root ((pageOf start (i - 1)).trail 3) t) :
    ∃ m', (writeLeaves root start p f t i n).run m = .ok (.ok ()) m' ∧ m'.frames = m.frames := by
  induction n generalizing m i t with
  | zero => exact ⟨m, rfl, rfl⟩
  | succ n ih =>
    obtain ⟨u, hu⟩ := htables i (Nat.le_refl i) (by omega)
    rw [writeLeaves_succ, run_bindE_ok (run_leafTableOf hu ht)]
    rcases run_frameOf hp i m with ⟨hframe, hup⟩ | ⟨-, hbig⟩
    · rw [run_bindE_ok hframe, run_bindE_ok (run_getE m)]
      obtain ⟨e, -, hno⟩ | ⟨-, m₁, hrun₁, hgrows, -, -⟩ := mapPage_spec
        (pageOf start i) (p.up (4096 * i)) f h hroot hu (VirtAddr.length_trail _ 3)
      · exact absurd ⟨aligned_pageOf hs i, hup, hf⟩ hno
      · rw [run_bindE_ok hrun₁]
        have hframes₁ : m₁.frames = m.frames := frames_of_request hrun₁
        obtain ⟨m', hrun, hframes⟩ := ih (i := i + 1) hgrows.sound (by omega)
          (fun k hlo hhi => by
            obtain ⟨u', hu'⟩ := htables k (by omega) (by omega)
            exact ⟨u', hgrows.reaches root hroot _ u' hu'⟩)
          fun _ => hgrows.reaches root hroot _ u hu
        exact ⟨m', hrun, hframes.trans hframes₁⟩
    · omega

/-! ## The whole range -/

/-- The second pass succeeds after a first pass that did. -/
theorem secondPass_total (h : Sound m roots held) (hroot : root ∈ roots)
    (hask : Proper start stop p f) (hroom : p.num + (stop.num - start.num) ≤ 2 ^ 48)
    (hfirst : (makeLeafTables root start 0 (leafTables start (pagesBetween start stop))).run m =
      .ok (.ok ()) m₁) :
    ∃ m₂, (writeLeaves root start p f root 0 (pagesBetween start stop)).run m₁ = .ok (.ok ()) m₂ ∧
      m₂.frames = m₁.frames := by
  obtain ⟨r, m₁', hrun, hgrows, -, -⟩ :=
    makeLeafTables_spec start 0 (leafTables start (pagesBetween start stop)) h hroot
  rw [hfirst] at hrun
  cases hrun
  have hle := hask.le
  have hpages := pagesBetween_eq hle
  refine writeLeaves_total hgrows.sound hroot hask.start_aligned hask.frame_aligned hask.flags
    (by omega) (fun k _ hk => ?_) fun h0 => absurd rfl h0
  rw [Nat.zero_add] at hk
  exact reaches_of_firstPass h hroot hfirst hk

/-- After a first pass that is through, the range is mapped without another frame. -/
theorem mapRange_of_firstPass (h : Sound m roots held) (hroot : root ∈ roots)
    (hask : Proper start stop p f) (hroom : p.num + (stop.num - start.num) ≤ 2 ^ 48)
    (hfirst : (makeLeafTables root start 0 (leafTables start (pagesBetween start stop))).run m =
      .ok (.ok ()) m₁) :
    ∃ m', (mapRange root start stop p f).run m = .ok (.ok (pagesBetween start stop)) m' ∧
      m'.frames = m₁.frames := by
  obtain ⟨m₂, hsecond, hframes⟩ := secondPass_total h hroot hask hroom hfirst
  refine ⟨_, (run_mapRange_proper root hask m).trans ((run_bindE_ok hfirst).trans
    ((run_bindE_ok hsecond).trans (run_bindE_ok rfl))), hframes⟩

/-- A range is mapped or fails, and it never stops half way. If it fails, every address has the
leaf it had below every root: either the request was refused, and then nothing at all was done, or
the first pass ran out of frames. Once the first pass is through, the second cannot fail. -/
theorem mapRange_all_or_nothing (h : Sound m roots held) (hroot : root ∈ roots)
    (hroom : p.num + (stop.num - start.num) ≤ 2 ^ 48) :
    ∃ r m', (mapRange root start stop p f).run m = .ok r m' ∧
      (∀ e, r = .error e →
        (∀ root' ∈ roots, ∀ v : VirtAddr,
          lookup m'.board.ram m'.frames.window root' v =
            lookup m.board.ram m.frames.window root' v) ∧
        ((e = .misaligned ∨ e = .badRange ∨ e = .badFlags) ∧ m' = m ∨
          e = .outOfFrames ∧
            (makeLeafTables root start 0 (leafTables start (pagesBetween start stop))).run m =
              .ok (.error e) m')) ∧
      ∀ m₁, Proper start stop p f →
        (makeLeafTables root start 0 (leafTables start (pagesBetween start stop))).run m =
          .ok (.ok ()) m₁ →
        r = .ok (pagesBetween start stop) ∧
          ∃ m₂, (writeLeaves root start p f root 0 (pagesBetween start stop)).run m₁ =
            .ok (.ok ()) m₂ ∧ m₂.frames = m₁.frames := by
  by_cases hask : Proper start stop p f
  · obtain ⟨r₁, m₁, hfirst, -, hsame, hmade⟩ :=
      makeLeafTables_spec start 0 (leafTables start (pagesBetween start stop)) h hroot
    rw [run_mapRange_proper root hask m]
    rcases r₁ with e | _
    · -- Only the first pass can fail, and it writes no leaf.
      refine ⟨.error e, m₁, run_bindE_fail hfirst, fun e' he => ?_, fun m₂ _ hok => ?_⟩
      · cases he
        exact ⟨hsame, Or.inr ⟨hmade.1, hfirst⟩⟩
      · rw [hfirst] at hok
        cases hok
    · obtain ⟨m₂, hsecond, hframes⟩ := secondPass_total h hroot hask hroom hfirst
      refine ⟨.ok (pagesBetween start stop), _, (run_bindE_ok hfirst).trans
        ((run_bindE_ok hsecond).trans (run_bindE_ok rfl)), fun e he => ?_, fun m₂' _ hok => ?_⟩
      · cases he
      · rw [hfirst] at hok
        cases hok
        exact ⟨rfl, m₂, hsecond, hframes⟩
  · obtain ⟨e, hrun, he⟩ := run_mapRange_refused root hask
    refine ⟨.error e, m, hrun m, fun e' he' => ?_, fun m₁ hyes => absurd hyes hask⟩
    cases he'
    exact ⟨fun _ _ _ => rfl, Or.inl ⟨he, rfl⟩⟩

/-! ## A crowded store -/

/-- A store with a single frame behind its bitmap. -/
def crowded : Memory where
  board := sample.board
  frames := { region := .ofWords 0x40000000 0x40006000, window := .identity }

theorem setUp_crowded : ∃ m, setup sampleImage crowded = .ok (.ok ()) m ∧
    SetUp crowded m sampleImage ∧ m.frames.total = m.frames.reserved + 1 ∧
      m.frames.region.start.num + 4096 * m.frames.total = 0x40006000 := by
  have hunset : Unset crowded :=
    ⟨rfl, rfl, rfl, rfl, rfl, unset_sample.shows,
      unset_sample.inside.mono (Nat.le_refl _) (by decide)⟩
  have hfits : Fits crowded sampleImage (.ofWords 0x40004000 0x40005000) := by
    refine ⟨by decide, by decide, by decide, ?_, by decide⟩
    decide
  obtain ⟨m, hrun, hset⟩ := setUp_of_fits hunset.blank hfits
  have hregion : m.frames.region.start.num = 0x40000000 ∧
      m.frames.region.stop.num = 0x40006000 := by
    rw [hset.region]
    exact ⟨rfl, rfl⟩
  have htotal := hset.consistent.plan.total_eq
  have hbytes := hset.consistent.plan.bitmapSize_eq
  have hreserved := hset.reserved
  rw [← hset.region, hregion.1, show sampleImage.stop.num = 0x40004000 from rfl] at hreserved
  rw [hregion.1, hregion.2] at htotal
  refine ⟨m, hrun, hset, by omega, by omega⟩

/-- No leaf table is reached where the root took the only frame. -/
theorem not_reaches_of_single (h : Sound m roots held) (hroot : root ∈ roots)
    (hsingle : m.frames.total = m.frames.reserved + 1) :
    ¬ Reaches m root (v.trail 3) t := by
  intro ht
  have hp := (h.owned root hroot _ root Reaches.root).managed
  have hq := (h.owned root hroot _ t ht).managed
  have hsame : t = root := by
    apply PhysAddr.num_inj
    have h1 := hp.low
    have h2 := hp.high
    have h3 := hq.low
    have h4 := hq.high
    omega
  rw [hsame] at ht
  have hpath := (h.unique root hroot root hroot _ _ root Reaches.root ht).2
  exact absurd (congrArg List.length hpath) (by rw [VirtAddr.length_trail]; decide)

/-- Two pages that the crowded store has no tables for: the request fails, and nothing is
mapped. -/
theorem mapRange_all_or_nothing_crowded :
    ∃ m₀ root m₁ m₂, Memory.setup sampleImage crowded = .ok (.ok ()) m₀ ∧
      allocateTable m₀ = .ok (some root) m₁ ∧
      (mapRange root ⟨0x1FF000⟩ ⟨0x201000⟩ ⟨0x40000000⟩ .data).run m₁ =
        .ok (.error .outOfFrames) m₂ ∧
      ∀ v, lookup m₂.board.ram m₂.frames.window root v = .empty := by
  obtain ⟨m₀, hsetup, hset, hsingle, htop⟩ := setUp_crowded
  have hsound₀ := sound_of_setUp hset (by rw [htop]; decide)
  obtain ⟨-, -, -, -, hzero⟩ | ⟨root, m₁, halloc, hsound, hgrows, -, -, hempty, -⟩ :=
    newRoot_spec hsound₀
  · have hfree := hset.free
    rw [Memory.supply] at hzero
    omega
  · have hroot : root ∈ [root] := List.mem_singleton.2 rfl
    obtain ⟨r, m₂, hrun, herror, -⟩ :
        ∃ r m', (mapRange root ⟨0x1FF000⟩ ⟨0x201000⟩ ⟨0x40000000⟩ .data).run m₁ = .ok r m' ∧ _ :=
      mapRange_all_or_nothing hsound hroot (by decide)
    have hask : Proper ⟨0x1FF000⟩ ⟨0x201000⟩ ⟨0x40000000⟩ .data :=
      ⟨by decide, by decide, by decide, by decide, by decide, by decide⟩
    obtain ⟨r₁, m₁', hfirst, hgrows₁, -, hmade⟩ := makeLeafTables_spec ⟨0x1FF000⟩ 0
      (leafTables ⟨0x1FF000⟩ (pagesBetween ⟨0x1FF000⟩ ⟨0x201000⟩)) hsound hroot
    rcases r₁ with e | _
    · obtain rfl : e = .outOfFrames := hmade.1
      rw [run_mapRange_proper root hask m₁, run_bindE_fail hfirst] at hrun
      cases hrun
      refine ⟨m₀, root, m₁, m₂, hsetup, halloc, ?_, fun v => ?_⟩
      · rw [run_mapRange_proper root hask m₁, run_bindE_fail hfirst]
      · rw [(herror _ rfl).1 root hroot v]
        exact hempty v
    · obtain ⟨t, ht⟩ := reaches_of_firstPass (i := 0) hsound hroot hfirst (by decide)
      have hplan := hgrows.plan.trans hgrows₁.plan
      refine absurd ht (not_reaches_of_single hgrows₁.sound hroot ?_)
      rw [hplan.total, hplan.reserved]
      exact hsingle

end Tables

end HighHalf
