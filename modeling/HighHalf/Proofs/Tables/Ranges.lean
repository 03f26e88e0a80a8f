import HighHalf.Proofs.Tables.Mapping

/-!
# Mapping a range

A range is mapped page by page through a leaf table that is looked up anew wherever a page has
slot 0. The table in use is always the one that covers the page at hand, so mapping a range
paints the leaves of its pages below one root and nothing else.

## Main definitions

* `Tables.painted`: the leaves below a root after some pages of a range were written
* `Tables.Covers`: the range lies in one half of the address space
-/

namespace HighHalf

/-! ## Pages and their slots -/

namespace VirtAddr

variable {u v : VirtAddr}

theorem num_add_mod (v : VirtAddr) (n : Nat) :
    (v.add (UInt64.ofNat n)).num % 2 ^ 48 = (v.num + n) % 2 ^ 48 := by
  have hnum : v.val.toNat = v.num := rfl
  have hv := v.num_lt
  rw [add, num_ofWord, UInt64.toNat_add, UInt64.toNat_ofNat', hnum]
  split <;> omega

/-- Canonical addresses with the same slots are in the same page. -/
theorem trail_four_eq_iff (hu : u.Canonical) (hv : v.Canonical) :
    u.trail 4 = v.trail 4 ↔ u.num / 4096 = v.num / 4096 := by
  rw [canonical_iff] at hu hv
  have hu' := u.num_lt
  have hv' := v.num_lt
  simp only [trail, List.cons.injEq, and_true, slot, page_eq]
  constructor
  · rintro ⟨h3, h2, h1, h0⟩
    norm_num at h3 h2 h1 h0
    omega
  · intro h
    rw [h]
    exact ⟨rfl, rfl, rfl, rfl⟩

theorem trail_floor (hv : v.Canonical) : v.floor.trail 4 = v.trail 4 := by
  have hfloor : v.floor.Canonical := canonical_ofWord _
  rw [trail_four_eq_iff hfloor hv, num_floor hv]
  omega

theorem trail_four_eq (h : u.num % 2 ^ 48 / 4096 = v.num % 2 ^ 48 / 4096) :
    u.trail 4 = v.trail 4 := by
  simp only [trail, List.cons.injEq, and_true, slot, page_eq]
  norm_num
  omega

/-- An address has the slots of its canonical form. -/
theorem trail_ofWord (v : VirtAddr) : (ofWord v.val).trail 4 = v.trail 4 := by
  refine trail_four_eq ?_
  have hnum : v.val.toNat = v.num := rfl
  rw [num_ofWord, hnum]
  split <;> omega

/-- The next page has the same leaf table unless its slot is 0. -/
theorem trail_three_eq (h : v.num % 2 ^ 48 = (u.num + 4096) % 2 ^ 48) (hslot : v.slot 3 ≠ 0) :
    v.trail 3 = u.trail 3 := by
  simp only [trail, List.cons.injEq, and_true, slot, page_eq] at hslot ⊢
  norm_num at hslot ⊢
  omega

end VirtAddr

namespace Tables

open Memory

variable {m m' m'' : Memory} {root root' t u p q : PhysAddr} {path : List Nat}
  {roots held : List PhysAddr} {start stop v : VirtAddr} {i j k n : Nat} {f : Flags}

theorem pageOf_zero (hs : start.Canonical) : pageOf start 0 = start := by
  show VirtAddr.ofWord (start.val + 0) = start
  rw [UInt64.add_zero]
  exact hs

theorem num_pageOf_mod (start : VirtAddr) (i : Nat) :
    (pageOf start i).num % 2 ^ 48 = (start.num + 4096 * i) % 2 ^ 48 :=
  start.num_add_mod (4096 * i)

theorem aligned_pageOf (h : start.num % 4096 = 0) (i : Nat) : (pageOf start i).aligned = true := by
  have hmod := num_pageOf_mod start i
  rw [VirtAddr.aligned_iff]
  omega

theorem trail_pageOf_succ (hslot : (pageOf start (i + 1)).slot 3 ≠ 0) :
    (pageOf start (i + 1)).trail 3 = (pageOf start i).trail 3 := by
  refine VirtAddr.trail_three_eq ?_ hslot
  have hnext : start.num + 4096 * (i + 1) = start.num + 4096 * i + 4096 := by
    rw [Nat.mul_add, Nat.mul_one, Nat.add_assoc]
  rw [num_pageOf_mod, hnext, Nat.add_mod (pageOf start i).num, num_pageOf_mod, ← Nat.add_mod]

/-! ## The leaves of a range -/

/-- The leaves `g` with those of pages `i` and on, `n` of them, of a range from `start` replaced
by leaves for the frames from `p` on. -/
def painted (start : VirtAddr) (p : PhysAddr) (f : Flags) (i : Nat) :
    Nat → (VirtAddr → Entry) → VirtAddr → Entry
  | 0, g => g
  | n + 1, g =>
    painted start p f (i + 1) n fun v =>
      if v.trail 4 = (pageOf start i).trail 4 then leafOf (p.up (4096 * i)) f else g v

/-- How often leaf tables are looked up for pages `i` and on, `n` of them. -/
def fetches (start : VirtAddr) (i : Nat) : Nat → Nat
  | 0 => 0
  | n + 1 => (if i = 0 || (pageOf start i).slot 3 = 0 then 1 else 0) + fetches start (i + 1) n

/-- What writing leaves came to, by the state that is left. -/
def Wrote (m : Memory) (roots held : List PhysAddr) (root : PhysAddr) (start : VirtAddr)
    (p : PhysAddr) (f : Flags) (i n : Nat) :
    EStateM.Result Fatal Memory (Except MapError Unit) → Prop
  | .ok (.ok _) m' => Grows m m' roots held ∧ m.supply ≤ m'.supply + 3 * fetches start i n ∧
      ∀ r ∈ roots, ∀ v, m'.lookup r v =
        if r = root then painted start p f i n (m.lookup r) v else m.lookup r v
  | .ok (.error e) m' =>
      Grows m m' roots held ∧ e = .outOfFrames ∧ m.supply < 3 * fetches start i n ∧ m'.supply = 0
  | .error e m' => Grows m m' roots held ∧ e = .addOverflow ∧ 2 ^ 64 < p.num + 4096 * (i + n)

/-- The leaf of page `i` is written first, then those of the pages after it. -/
theorem Wrote.after {r : EStateM.Result Fatal Memory (Except MapError Unit)} {d : Nat}
    (hrest : Wrote m' roots held root start p f (i + 1) n r) (hgrows : Grows m m' roots held)
    (hone : OneLeaf m m' roots root ((pageOf start i).trail 4) (leafOf (p.up (4096 * i)) f))
    (hsupply : m.supply ≤ m'.supply + 3 * d)
    (hd : fetches start i (n + 1) = d + fetches start (i + 1) n) :
    Wrote m roots held root start p f i (n + 1) r := by
  rcases r with ⟨e | _, m₂⟩ | ⟨e, m₂⟩
  · obtain ⟨hgrows', he, hsupply', hnone⟩ := hrest
    exact ⟨hgrows.trans hgrows', he, by omega, hnone⟩
  · obtain ⟨hgrows', hsupply', hlookup⟩ := hrest
    refine ⟨hgrows.trans hgrows', by omega, fun r hr v => ?_⟩
    rw [hlookup r hr v]
    by_cases hroot : r = root
    · rw [if_pos hroot, if_pos hroot, painted]
      congr 1
      funext u
      rw [hone r hr u, hroot]
      simp only [true_and]
    · rw [if_neg hroot, if_neg hroot, hone r hr v, if_neg fun c => hroot c.1]
  · obtain ⟨hgrows', he, hbig⟩ := hrest
    exact ⟨hgrows.trans hgrows', he, by omega⟩

/-- The leaf table of page `i`: kept from the page before, or looked up. -/
theorem leafTableOf_spec (h : Sound m roots held) (hroot : root ∈ roots)
    (ht : i ≠ 0 → Reaches m root ((pageOf start (i - 1)).trail 3) t) :
    ∃ r m', (if i = 0 || (pageOf start i).slot 3 = 0 then makeLeafTable root (pageOf start i)
        else pure t : MapM PhysAddr).run m = .ok r m' ∧ Grows m m' roots held ∧
      SameLeaves m m' roots ∧ Made m m' root ((pageOf start i).trail 3)
        (3 * if i = 0 || (pageOf start i).slot 3 = 0 then 1 else 0) r := by
  by_cases hnew : i = 0 ∨ (pageOf start i).slot 3 = 0
  · have hcond : (i = 0 || (pageOf start i).slot 3 = 0 : Bool) = true := by simpa using hnew
    rw [if_pos hcond, if_pos hcond]
    exact makeLeafTable_spec (pageOf start i) h hroot
  · have hcond : ¬ (i = 0 || (pageOf start i).slot 3 = 0 : Bool) = true := by simpa using hnew
    rw [if_neg hcond, if_neg hcond]
    rw [not_or] at hnew
    refine ⟨.ok t, m, rfl, Grows.refl h, fun _ _ _ => rfl, ?_, by omega⟩
    obtain ⟨i, rfl⟩ := Nat.exists_eq_succ_of_ne_zero hnew.1
    have hkept := ht hnew.1
    rwa [Nat.succ_eq_add_one, Nat.add_sub_cancel, ← trail_pageOf_succ hnew.2] at hkept

/-- The frame of page `i`, or a stop where its address leaves 64 bits. -/
theorem frameOf_spec (p : PhysAddr) (i : Nat) :
    (p.add (UInt64.ofNat (4096 * i)) = .ok (p.up (4096 * i))) ∨
      p.add (UInt64.ofNat (4096 * i)) = .error .addOverflow ∧ 2 ^ 64 ≤ p.num + 4096 * i := by
  have hoffset : (UInt64.ofNat (4096 * i)).toNat ≤ 4096 * i := by
    rw [UInt64.toNat_ofNat']
    exact Nat.mod_le _ _
  by_cases hlt : p.num + (UInt64.ofNat (4096 * i)).toNat < 2 ^ 64
  · exact Or.inl (PhysAddr.add_of_lt hlt)
  · exact Or.inr ⟨PhysAddr.add_of_le (Nat.not_lt.1 hlt), by omega⟩

/-- An aligned frame gives aligned frames, so no page of a range is refused. -/
theorem run_frameOf (hp : p.num % 4096 = 0) (i : Nat) (m : Memory) :
    ((liftM (p.add (UInt64.ofNat (4096 * i))) : MapM PhysAddr).run m =
        .ok (.ok (p.up (4096 * i))) m ∧ (p.up (4096 * i)).aligned = true) ∨
      (liftM (p.add (UInt64.ofNat (4096 * i))) : MapM PhysAddr).run m = .error .addOverflow m ∧
        2 ^ 64 ≤ p.num + 4096 * i := by
  rcases frameOf_spec p i with hframe | ⟨hframe, hbig⟩
  · refine Or.inl ⟨by rw [hframe]; rfl, ?_⟩
    have hnum := PhysAddr.num_add hframe
    rw [UInt64.toNat_ofNat'] at hnum
    rw [PhysAddr.aligned_iff]
    omega
  · exact Or.inr ⟨by rw [hframe]; rfl, hbig⟩

/-- One page more: its leaf table, its frame, its leaf, and then the rest. -/
theorem writeLeaves_succ (root : PhysAddr) (start : VirtAddr) (p : PhysAddr) (f : Flags)
    (t : PhysAddr) (i n : Nat) :
    writeLeaves root start p f t i (n + 1) =
      ((if i = 0 || (pageOf start i).slot 3 = 0 then makeLeafTable root (pageOf start i)
        else pure t : MapM PhysAddr) >>= fun table => (do
          let frame ← p.add (UInt64.ofNat (4096 * i))
          let w := (← get).frames.window
          Memory.request (mapPage w table (pageOf start i) frame f)
          writeLeaves root start p f table (i + 1) n : MapM Unit)) := by
  rw [writeLeaves]
  split <;> rfl

/-- Writing leaves: the table in use is the one of the page before. -/
theorem writeLeaves_spec (h : Sound m roots held) (hroot : root ∈ roots)
    (hs : start.num % 4096 = 0) (hp : p.num % 4096 = 0) (hf : Entry.Complete f)
    (ht : i ≠ 0 → Reaches m root ((pageOf start (i - 1)).trail 3) t) :
    Wrote m roots held root start p f i n ((writeLeaves root start p f t i n).run m) := by
  induction n generalizing m i t with
  | zero =>
    refine ⟨Grows.refl h, Nat.le_refl _, fun r _ v => ?_⟩
    rw [painted, ite_self]
  | succ n ih =>
    rw [writeLeaves_succ]
    obtain ⟨r₁, m₁, hrun₁, hgrows₁, hsame₁, hmade⟩ := leafTableOf_spec h hroot ht
    cases r₁ with
    | error e =>
      obtain ⟨he, hsupply, hnone⟩ := hmade
      -- No frame for the leaf table: nothing was written.
      rw [run_bindE_fail hrun₁]
      exact ⟨hgrows₁, he, by rw [fetches]; omega, hnone⟩
    | ok t₁ =>
      obtain ⟨hr₁, hsupply₁⟩ := hmade
      rw [run_bindE_ok hrun₁]
      rcases run_frameOf hp i m₁ with ⟨hframe, hup⟩ | ⟨hstop, hbig⟩
      · rw [run_bindE_ok hframe, run_bindE_ok (run_getE m₁)]
        obtain ⟨e, -, hno⟩ | ⟨-, m₂, hrun₂, hgrows₂, hone, hsupply₂⟩ := mapPage_spec
          (pageOf start i) (p.up (4096 * i)) f hgrows₁.sound hroot hr₁ (VirtAddr.length_trail _ 3)
        · exact absurd ⟨aligned_pageOf hs i, hup, hf⟩ hno
        · rw [run_bindE_ok hrun₂]
          have hrest := ih (i := i + 1) hgrows₂.sound
            fun _ => hgrows₂.reaches root hroot _ t₁ hr₁
          refine hrest.after (hgrows₁.trans hgrows₂) (fun r hr v => ?_) ?_ rfl
          · rw [hone r hr v, hsame₁ r hr v]
            rfl
          · omega
      · rw [run_bindE_stop hstop]
        exact ⟨hgrows₁, rfl, by omega⟩

/-! ## The whole range -/

/-- A request that the mapper does not refuse. -/
structure Proper (start stop : VirtAddr) (p : PhysAddr) (f : Flags) : Prop where
  start_aligned : start.num % 4096 = 0
  stop_aligned : stop.num % 4096 = 0
  frame_aligned : p.num % 4096 = 0
  le : start.num ≤ stop.num
  flags : Entry.Complete f

theorem pagesBetween_eq (h : start.num ≤ stop.num) :
    pagesBetween start stop = (stop.num - start.num) / 4096 := by
  have h12 : (12 : UInt64).toNat % 64 = 12 := rfl
  rw [pagesBetween, UInt64.toNat_shiftRight, Nat.shiftRight_eq_div_pow]
  show (stop.val - start.val).toNat / 2 ^ 12 = _
  rw [UInt64.toNat_sub_of_le _ _ (UInt64.le_iff_toNat_le.2 h)]
  rfl

/-- How many frames are enough for the tables of `n` pages from `start` on. -/
def tablesFor (start : VirtAddr) (n : Nat) : Nat := 3 * (leafTables start n + fetches start 0 n)

/-- Leaf tables are looked up for the first page and once for each slot 0. -/
theorem fetches_le (start : VirtAddr) (i n : Nat) :
    fetches start i n + (start.page + i + 511) / 512 ≤
      (if i = 0 then 1 else 0) + (start.page + i + n + 511) / 512 := by
  induction n generalizing i with
  | zero => rw [fetches]; omega
  | succ n ih =>
    -- Slot 0 stands for the page numbers that 512 divides.
    have hslot : (pageOf start i).slot 3 = (start.page + i) % 512 := by
      have hmod := num_pageOf_mod start i
      rw [VirtAddr.slot, VirtAddr.page_eq, VirtAddr.page_eq]
      norm_num
      omega
    have hrest := ih (i + 1)
    rw [fetches, hslot]
    by_cases hi : i = 0
    · rw [if_pos hi, if_pos (by simp [hi])]
      rw [if_neg (by omega)] at hrest
      omega
    · rw [if_neg hi]
      rw [if_neg (by omega)] at hrest
      by_cases hzero : (start.page + i) % 512 = 0
      · rw [if_pos (by simp [hzero])]
        omega
      · rw [if_neg (by simp [hi, hzero])]
        omega

theorem tablesFor_le (start : VirtAddr) (n : Nat) : tablesFor start n ≤ 6 * (n / 512) + 15 := by
  have hfetch := fetches_le start 0 n
  have hslot := start.slot_lt 3
  rw [if_pos rfl] at hfetch
  rw [tablesFor, leafTables]
  split <;> omega

/-- What mapping a range came to, by the state that is left. -/
def Mapped (m : Memory) (roots held : List PhysAddr) (root : PhysAddr) (start stop : VirtAddr)
    (p : PhysAddr) (f : Flags) : EStateM.Result Fatal Memory (Except MapError Nat) → Prop
  | .ok (.ok n) m' => Grows m m' roots held ∧ Proper start stop p f ∧
      n = pagesBetween start stop ∧ m.supply ≤ m'.supply + tablesFor start n ∧
      ∀ r ∈ roots, ∀ v, m'.lookup r v =
        if r = root then painted start p f 0 n (m.lookup r) v else m.lookup r v
  | .ok (.error e) m' => Grows m m' roots held ∧ (Proper start stop p f →
      e = .outOfFrames ∧ m.supply < tablesFor start (pagesBetween start stop) ∧ m'.supply = 0)
  | .error e m' => Grows m m' roots held ∧ e = .addOverflow ∧
      2 ^ 64 < p.num + 4096 * pagesBetween start stop

/-- A request that is not proper is refused, and nothing is done. -/
theorem run_mapRange_refused (root : PhysAddr) (hno : ¬ Proper start stop p f) :
    ∃ e, (∀ m, (mapRange root start stop p f).run m = .ok (.error e) m) ∧
      (e = .misaligned ∨ e = .badRange ∨ e = .badFlags) := by
  by_cases halign : start.aligned = true ∧ stop.aligned = true ∧ p.aligned = true
  · have hguard : (!start.aligned || !stop.aligned || !p.aligned) = false := by
      rw [halign.1, halign.2.1, halign.2.2]
      rfl
    by_cases hle : stop.val < start.val
    · refine ⟨.badRange, fun m => ?_, by decide⟩
      rw [mapRange, hguard, if_neg Bool.false_ne_true, if_pos hle]
      rfl
    · have hflags : ¬ Entry.Complete f := by
        intro hf
        simp only [VirtAddr.aligned_iff, PhysAddr.aligned_iff] at halign
        rw [UInt64.lt_iff_toNat_lt] at hle
        exact hno ⟨halign.1, halign.2.1, halign.2.2, Nat.not_lt.1 hle, hf⟩
      refine ⟨.badFlags, fun m => ?_, by decide⟩
      rw [mapRange, hguard, if_neg Bool.false_ne_true, if_neg hle, checkFlags_eq_error hflags]
      rfl
  · have hguard : (!start.aligned || !stop.aligned || !p.aligned) = true := by
      revert halign
      cases start.aligned <;> cases stop.aligned <;> cases p.aligned <;> simp
    refine ⟨.misaligned, fun m => ?_, by decide⟩
    rw [mapRange, if_pos hguard]
    rfl

/-- A proper request is its two passes and a line of the log. -/
theorem run_mapRange_proper (root : PhysAddr) (hask : Proper start stop p f) (m : Memory) :
    (mapRange root start stop p f).run m = (do
      makeLeafTables root start 0 (leafTables start (pagesBetween start stop))
      writeLeaves root start p f root 0 (pagesBetween start stop)
      Board.note .trace .tables
        s!"mapped [{start}..{stop}) -> {p} ({pagesBetween start stop} pages)"
      return pagesBetween start stop : MapM Nat).run m := by
  have hguard : (!start.aligned || !stop.aligned || !p.aligned) = false := by
    rw [(start.aligned_iff).2 hask.start_aligned, (stop.aligned_iff).2 hask.stop_aligned,
      (p.aligned_iff).2 hask.frame_aligned]
    rfl
  have hle : ¬ stop.val < start.val := by
    rw [UInt64.lt_iff_toNat_lt]
    exact Nat.not_lt.2 hask.le
  rw [mapRange, hguard, if_neg Bool.false_ne_true, if_neg hle, checkFlags_eq_ok_iff.2 hask.flags]
  exact run_bindE_ok (run_checkE () m)

/-- Whatever way mapping a range ends, the trees are sound; if it succeeds, the pages of the
range are painted below its root. -/
theorem mapRange_spec (start stop : VirtAddr) (p : PhysAddr) (f : Flags) (h : Sound m roots held)
    (hroot : root ∈ roots) :
    Mapped m roots held root start stop p f ((mapRange root start stop p f).run m) := by
  by_cases hask : Proper start stop p f
  · rw [run_mapRange_proper root hask m]
    -- All leaf tables are made before the first leaf is written.
    obtain ⟨r₁, m₁, hrun₁, hgrows₁, hsame₁, hmade⟩ :=
      makeLeafTables_spec start 0 (leafTables start (pagesBetween start stop)) h hroot
    have hwrote := writeLeaves_spec (t := root) (i := 0) (n := pagesBetween start stop)
      hgrows₁.sound hroot hask.start_aligned hask.frame_aligned hask.flags fun h0 => absurd rfl h0
    rcases r₁ with e | _
    · rw [run_bindE_fail hrun₁]
      obtain ⟨he, hsupply₁, hnone⟩ := hmade
      exact ⟨hgrows₁, fun _ => ⟨he, by rw [tablesFor]; omega, hnone⟩⟩
    · have hsupply₁ : m.supply ≤ m₁.supply + 3 * leafTables start (pagesBetween start stop) := hmade
      rw [run_bindE_ok hrun₁]
      cases hrun₂ : (writeLeaves root start p f root 0 (pagesBetween start stop)).run m₁ with
      | error e m₂ =>
        rw [hrun₂] at hwrote
        obtain ⟨hgrows₂, he, hbig⟩ := hwrote
        rw [run_bindE_stop hrun₂]
        exact ⟨hgrows₁.trans hgrows₂, he, by omega⟩
      | ok r₂ m₂ =>
        rw [hrun₂] at hwrote
        rcases r₂ with e | _
        · obtain ⟨hgrows₂, he, hsupply₂, hnone⟩ := hwrote
          rw [run_bindE_fail hrun₂]
          exact ⟨hgrows₁.trans hgrows₂, fun _ => ⟨he, by rw [tablesFor]; omega, hnone⟩⟩
        · obtain ⟨hgrows₂, hsupply₂, hlookup⟩ := hwrote
          obtain ⟨m₃, hnote, hgrows₃, hsame₃, hsupply₃⟩ := note_spec hgrows₂.sound .trace .tables
            s!"mapped [{start}..{stop}) -> {p} ({pagesBetween start stop} pages)"
          rw [show _ = _ from (run_bindE_ok hrun₂).trans (run_bindE_ok hnote)]
          refine ⟨(hgrows₁.trans hgrows₂).trans hgrows₃, hask, rfl, ?_, fun r hr v => ?_⟩
          · rw [tablesFor]
            omega
          · rw [hsame₃ r hr v, hlookup r hr v]
            by_cases hr' : r = root
            · rw [if_pos hr', if_pos hr']
              congr 1
              funext u
              exact hsame₁ r hr u
            · rw [if_neg hr', if_neg hr', hsame₁ r hr v]
  · obtain ⟨e, hrun, -⟩ := run_mapRange_refused root hask
    rw [hrun]
    exact ⟨Grows.refl h, fun hyes => absurd hyes hask⟩

/-- A proper request succeeds while enough frames are left. -/
theorem mapRange_succeeds (h : Sound m roots held) (hroot : root ∈ roots)
    (hask : Proper start stop p f) (hroom : p.num + 4096 * pagesBetween start stop ≤ 2 ^ 64)
    (hsupply : tablesFor start (pagesBetween start stop) ≤ m.supply) :
    ∃ m', (mapRange root start stop p f).run m = .ok (.ok (pagesBetween start stop)) m' := by
  have hspec := mapRange_spec start stop p f h hroot
  cases hrun : (mapRange root start stop p f).run m with
  | error e m' =>
    rw [hrun] at hspec
    obtain ⟨-, -, hbig⟩ := hspec
    omega
  | ok r m' =>
    rw [hrun] at hspec
    rcases r with e | n
    · obtain ⟨-, hno⟩ := hspec
      have := (hno hask).2
      omega
    · obtain ⟨-, -, rfl, -, -⟩ := hspec
      exact ⟨m', rfl⟩

/-! ## Ranges as intervals -/

/-- The `n` pages from `start` on lie in one half of the address space. -/
def Covers (start : VirtAddr) (n : Nat) : Prop :=
  start.num + 4096 * n ≤ 2 ^ 47 ∨ 2 ^ 64 - 2 ^ 47 ≤ start.num ∧ start.num + 4096 * n ≤ 2 ^ 64

theorem Covers.num_add (h : Covers start n) (hj : j < 4096 * n) :
    (start.add (UInt64.ofNat j)).num = start.num + j := by
  have hlt : j < 2 ^ 64 := by
    rcases h with h | ⟨-, h⟩ <;> omega
  have hj' : (UInt64.ofNat j).toNat = j := UInt64.toNat_ofNat_of_lt' hlt
  rw [VirtAddr.num_add, hj']
  rw [hj']
  rcases h with h | ⟨h, h'⟩ <;> omega

theorem Covers.num_pageOf (h : Covers start n) (hi : i < n) :
    (pageOf start i).num = start.num + 4096 * i :=
  h.num_add (by omega)

theorem Covers.inPage_add (h : Covers start n) (hs : start.num % 4096 = 0) {k b : Nat} (hk : k < n)
    (hb : b < 4096) :
    (start.add (UInt64.ofNat (4096 * k + b))).inPage = UInt64.ofNat b := by
  have hnum := h.num_add (j := 4096 * k + b) (by omega)
  apply UInt64.toNat_inj.1
  rw [VirtAddr.num_inPage, UInt64.toNat_ofNat_of_lt' (by show b < 2 ^ 64; omega)]
  omega

/-- A canonical range of one half. -/
theorem covers_of_half (hstart : start.Canonical) (hstop : stop.Canonical)
    (hhalf : start.high = stop.high) (hlen : stop.num = start.num + 4096 * n) :
    Covers start n := by
  have hhigh := VirtAddr.high_iff hstart
  rw [hhalf, VirtAddr.high_iff hstop] at hhigh
  have hlt := stop.num_lt
  rcases (VirtAddr.canonical_iff stop).1 hstop with hlow | hup
  · exact Or.inl (by omega)
  · exact Or.inr (by omega)

/-- An address of a range has the leaf of its page, any other what it had. -/
theorem painted_eq {lo hi : Nat} (hs : start.num % 4096 = 0) (h : Covers start (i + n))
    (hlo : lo = start.num + 4096 * i) (hhi : hi = start.num + 4096 * (i + n)) (hv : v.Canonical)
    (g : VirtAddr → Entry) :
    painted start p f i n g v =
      if lo ≤ v.num ∧ v.num < hi then leafOf (p.up (4096 * ((v.num - start.num) / 4096))) f
      else g v := by
  induction n generalizing i lo g with
  | zero => rw [painted, if_neg (by omega)]
  | succ n ih =>
    have hpage : v.trail 4 = (pageOf start i).trail 4 ↔ lo ≤ v.num ∧ v.num < lo + 4096 := by
      have hcanon : (pageOf start i).Canonical := start.canonical_add _
      rw [VirtAddr.trail_four_eq_iff hv hcanon, h.num_pageOf (by omega)]
      omega
    have hsum : i + (n + 1) = i + 1 + n := by omega
    rw [hsum] at h hhi
    rw [painted, ih h (show lo + 4096 = start.num + 4096 * (i + 1) by omega) hhi]
    -- Later pages are painted over this one, so they are looked at first.
    by_cases hlater : lo + 4096 ≤ v.num ∧ v.num < hi
    · rw [if_pos hlater, if_pos ⟨by omega, hlater.2⟩]
    · rw [if_neg hlater]
      by_cases hhere : lo ≤ v.num ∧ v.num < lo + 4096
      · have hindex : (v.num - start.num) / 4096 = i := by omega
        rw [if_pos (hpage.2 hhere), if_pos ⟨hhere.1, by omega⟩, hindex]
      · rw [if_neg fun c => hhere (hpage.1 c), if_neg (by omega)]

theorem painted_between (hs : start.num % 4096 = 0) (h : Covers start n)
    (hlen : stop.num = start.num + 4096 * n) (hv : v.Canonical) (g : VirtAddr → Entry) :
    painted start p f 0 n g v =
      if start.num ≤ v.num ∧ v.num < stop.num then
        leafOf (p.up (4096 * ((v.num - start.num) / 4096))) f
      else g v := by
  refine painted_eq hs ?_ ?_ ?_ hv g
  · rwa [Nat.zero_add]
  · rw [Nat.mul_zero, Nat.add_zero]
  · rw [hlen, Nat.zero_add]

/-- The bytes of page `k` have its leaf. -/
theorem painted_page (hs : start.num % 4096 = 0) (h : Covers start n) {k b : Nat} (hk : k < n)
    (hb : b < 4096) (g : VirtAddr → Entry) :
    painted start p f 0 n g (start.add (UInt64.ofNat (4096 * k + b))) =
      leafOf (p.up (4096 * k)) f := by
  have hnum := h.num_add (j := 4096 * k + b) (by omega)
  rw [painted_eq hs (by rwa [Nat.zero_add]) rfl rfl (start.canonical_add _),
    if_pos (by omega), hnum,
    show (start.num + (4096 * k + b) - start.num) / 4096 = k by omega]

/-- Outside of the range nothing is painted. -/
theorem painted_outside (hs : start.num % 4096 = 0) (h : Covers start n) (hv : v.Canonical)
    (hout : ¬ (start.num ≤ v.num ∧ v.num < start.num + 4096 * n)) (g : VirtAddr → Entry) :
    painted start p f 0 n g v = g v := by
  rw [painted_eq hs (by rwa [Nat.zero_add]) rfl rfl hv, if_neg (by omega)]

theorem leafOf_eq (ha : p.num % 4096 = 0) (hp : p.num < 2 ^ 48) (f : Flags) :
    leafOf p f = ⟨p.val ||| f.bits⟩ := by
  rw [leafOf, Entry.and_addressMask ha hp, Entry.toLeaf]

/-- A byte of a mapped page stands for the byte of its frame. -/
theorem resolve_of_lookup {w : Window} {r : Ram} (hf : Entry.Complete f) (ha : p.num % 4096 = 0)
    (hp : p.num < 2 ^ 48) (hlookup : lookup r w root v = leafOf p f) :
    resolve r w root v = some ⟨p.val + v.inPage⟩ := by
  rw [resolve, hlookup, leafOf, Entry.isLeaf_toLeaf hf, if_pos rfl, Entry.addr_toLeaf hf,
    Entry.and_addressMask ha hp]

/-- A range that is mapped has exactly the leaves that were asked for, and no other leaf of any
tree changes. -/
theorem mapRange_exact (h : Sound m roots held) (hroot : root ∈ roots) (hstart : start.Canonical)
    (hstop : stop.Canonical) (hhalf : start.high = stop.high)
    (hroom : p.num + (stop.num - start.num) ≤ 2 ^ 48)
    (hrun : (mapRange root start stop p f).run m = .ok (.ok n) m') :
    n = (stop.num - start.num) / 4096 ∧
      (∀ k < n, lookup m'.board.ram m'.frames.window root (start.add (UInt64.ofNat (4096 * k))) =
          ⟨(p.val + UInt64.ofNat (4096 * k)) ||| f.bits⟩ ∧
        ∀ b < 4096,
          resolve m'.board.ram m'.frames.window root (start.add (UInt64.ofNat (4096 * k + b))) =
            some ⟨p.val + UInt64.ofNat (4096 * k + b)⟩) ∧
      (∀ v : VirtAddr, v.Canonical → ¬ (start.num ≤ v.num ∧ v.num < stop.num) →
        lookup m'.board.ram m'.frames.window root v = lookup m.board.ram m.frames.window root v) ∧
      ∀ r ∈ roots, r ≠ root → ∀ v : VirtAddr,
        lookup m'.board.ram m'.frames.window r v = lookup m.board.ram m.frames.window r v := by
  have hspec := mapRange_spec start stop p f h hroot
  rw [hrun] at hspec
  obtain ⟨-, hask, hn, -, hlookup⟩ := hspec
  have hsa := hask.start_aligned
  have hso := hask.stop_aligned
  have hpa := hask.frame_aligned
  have hle := hask.le
  rw [pagesBetween_eq hle] at hn
  have hlen : stop.num = start.num + 4096 * n := by omega
  have hcovers := covers_of_half hstart hstop hhalf hlen
  have hframe : ∀ k < n, (p.up (4096 * k)).num = p.num + 4096 * k :=
    fun k hk => PhysAddr.num_up (by omega)
  have hpage : ∀ k < n, ∀ b < 4096,
      m'.lookup root (start.add (UInt64.ofNat (4096 * k + b))) = leafOf (p.up (4096 * k)) f := by
    intro k hk b hb
    rw [hlookup root hroot, if_pos rfl, painted_page hsa hcovers hk hb]
  refine ⟨hn, fun k hk => ⟨?_, fun b hb => ?_⟩, fun v hv hout => ?_, fun r hr hne v => ?_⟩
  · have hleaf := hpage k hk 0 (by omega)
    have hnum := hframe k hk
    rw [leafOf_eq (by omega) (by omega)] at hleaf
    exact hleaf
  · have hnum := hframe k hk
    rw [resolve_of_lookup hask.flags (by omega) (by omega) (hpage k hk b hb),
      hcovers.inPage_add hsa hk hb]
    exact congrArg some (PhysAddr.up_up p (4096 * k) b)
  · have hrest := hlookup root hroot v
    rwa [if_pos rfl, painted_outside hsa hcovers hv (by omega)] at hrest
  · have hother := hlookup r hr v
    rwa [if_neg hne] at hother

/-- Two pages on both sides of a boundary between leaf tables, mapped in the small store. -/
theorem mapRange_exact_sample :
    ∃ m₀ root m₁ m₂, Memory.setup sampleImage sample = .ok (.ok ()) m₀ ∧
      allocateTable m₀ = .ok (some root) m₁ ∧
      (mapRange root ⟨0x1FF000⟩ ⟨0x201000⟩ ⟨0x40010000⟩ .data).run m₁ = .ok (.ok 2) m₂ ∧
      lookup m₂.board.ram m₂.frames.window root ⟨0x200000⟩ = ⟨0x40011000 ||| Flags.data.bits⟩ ∧
      resolve m₂.board.ram m₂.frames.window root ⟨0x200004⟩ = some ⟨0x40011004⟩ := by
  obtain ⟨m₀, hsetup, hset, -, hsupply₀, htop⟩ := setUp_sample
  have hsound₀ := sound_of_setUp hset (by rw [htop]; decide)
  rcases newRoot_spec hsound₀ with
    ⟨-, -, -, -, hzero⟩ | ⟨root, m₁, halloc, hsound, -, -, -, -, hsupply⟩
  · omega
  · have hroot : root ∈ [root] := List.mem_singleton.2 rfl
    have hask : Proper ⟨0x1FF000⟩ ⟨0x201000⟩ ⟨0x40010000⟩ .data :=
      ⟨by decide, by decide, by decide, by decide, by decide, by decide⟩
    have hpages : pagesBetween ⟨0x1FF000⟩ ⟨0x201000⟩ = 2 := by decide
    have hfew := tablesFor_le ⟨0x1FF000⟩ 2
    obtain ⟨m₂, hrun⟩ := mapRange_succeeds hsound hroot hask (by rw [hpages]; decide)
      (by rw [hpages]; omega)
    rw [hpages] at hrun
    obtain ⟨-, hleaves, -, -⟩ := mapRange_exact hsound hroot (by rw [VirtAddr.Canonical]; decide)
      (by rw [VirtAddr.Canonical]; decide) (by decide) (by decide) hrun
    obtain ⟨hleaf, hbytes⟩ := hleaves 1 (by decide)
    exact ⟨m₀, root, m₁, m₂, hsetup, halloc, hrun, hleaf, hbytes 4 (by decide)⟩

end Tables

end HighHalf
