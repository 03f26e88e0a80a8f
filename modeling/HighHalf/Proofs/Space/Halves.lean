import HighHalf.Proofs.Ledger.Agreement

/-!
# Requests for the two halves

Once the kernel is in the high half, a request for a page or a range goes to the high root, or is
refused on the spot. What decides is the half of the first byte and the half of the last one. The
last byte is the one before the end, and the end is an address in canonical form. So where the
low half ends, the end is the first address of the high half, and the byte before that counts as
high; and where the high half ends, the end is 0, and the range is taken by its start.

## Main definitions

* `VirtAddr.ofNat`: the canonical form of a number
* `Space.InHighHalf`: what the address space records once the kernel is in the high half
* `Space.Routed`: how requests for the two halves are answered

## Main results

* `Space.Later.routed`: in every state of every run they are answered in that way
-/

namespace HighHalf

namespace VirtAddr

/-- The canonical form of a number. -/
def ofNat (n : Nat) : VirtAddr := ofWord (UInt64.ofNat n)

variable {v : VirtAddr} {n : Nat}

theorem num_ofNat_low (h : n < 2 ^ 47) : (ofNat n).num = n := by
  rw [ofNat, num_ofWord, UInt64.toNat_ofNat_of_lt' (by show n < 2 ^ 64; omega)]
  split <;> omega

theorem num_ofNat_high (hlow : 2 ^ 64 - 2 ^ 47 ≤ n) (hn : n < 2 ^ 64) : (ofNat n).num = n := by
  rw [ofNat, num_ofWord, UInt64.toNat_ofNat_of_lt' hn]
  split <;> omega

theorem high_iff_num : v.high = true ↔ 2 ^ 64 - 2 ^ 48 ≤ v.num := by
  have hs : highHalfStart.toNat = 2 ^ 64 - 2 ^ 48 := by decide
  rw [high, decide_eq_true_iff, UInt64.le_iff_toNat_le, hs]
  rfl

theorem high_eq_true (h : 2 ^ 64 - 2 ^ 48 ≤ v.num) : v.high = true := high_iff_num.2 h

theorem high_eq_false (h : v.num < 2 ^ 64 - 2 ^ 48) : v.high = false :=
  Bool.eq_false_iff.2 fun hv => Nat.not_le.2 h (high_iff_num.1 hv)

/-- A page begins at a number and ends at the canonical form of one. -/
theorem page_eq_ofNat (hv : v.Canonical) :
    v.floor = ofNat (v.num / 4096 * 4096) ∧
      v.floor.add pageSize = ofNat (v.num / 4096 * 4096 + 4096) := by
  have hfloor := num_floor hv
  have hval : v.floor.val.toNat = v.floor.num := rfl
  have hword : v.floor.val = UInt64.ofNat (v.num / 4096 * 4096) := by
    rw [← hfloor]
    exact (UInt64.ofNat_toNat).symm
  refine ⟨?_, ?_⟩
  · refine num_inj ?_
    rw [ofNat, ← hword]
    exact congrArg num (canonical_ofWord _ : v.floor.Canonical).symm
  · rw [add, ofNat, hword, UInt64.ofNat_add]
    rfl

end VirtAddr

namespace Space

open Memory

variable {c : MemoryConfig} {l : ImageLayout} {b : Board} {w : Window} {s s' : Space}
  {start stop v : VirtAddr} {x y : Nat}

/-! ## In the high half -/

/-- The kernel is in the high half: there are roots, and the low half is not walked any more. -/
structure InHighHalf (s : Space) : Prop where
  mode : s.mode = .resolved
  live : s.live = .highOnly
  roots : ∃ roots, s.roots = some roots

theorem InHighHalf.served (h : InHighHalf s) (hs : Served s s') : InHighHalf s' := by
  obtain ⟨m, ledger, rfl⟩ := hs.kept
  exact ⟨h.mode, h.live, h.roots⟩

theorem inHighHalf_of_boot (hmode : s.mode = .unsettled) (hboot : boot s = .ok .resolved s') :
    InHighHalf s' := by
  obtain ⟨m, s₁, s₂, -, rfl, ⟨arrival, hmove, henter, -⟩ | ⟨a, -, -, hbypass⟩⟩ :=
    boot_cases hmode hboot
  · have hlive := Transition.live_of_run hmove
    cases henter
    exact ⟨rfl, hlive, _, rfl⟩
  · cases hbypass

/-- The mode is recorded together with the roots, whatever has been asked so far. -/
theorem Later.inHighHalf (h : Later (fresh c l b w) s) (hmode : s.mode = .resolved) :
    InHighHalf s := by
  induction h with
  | refl => cases hmode
  | step call _ hrun ih =>
    rcases Call.cases_of_run hrun with hserved | ⟨hunsettled, mode, hboot⟩
    · exact (ih (hserved.mode_eq.symm.trans hmode)).served hserved
    · obtain ⟨hrecorded, -⟩ := recorded_of_boot hunsettled hboot
      rw [← hrecorded, hmode] at hboot
      exact inHighHalf_of_boot hunsettled hboot

/-! ## The root of a range -/

/-- The byte by which the end of a range is judged. -/
def lastOf (start stop : VirtAddr) : VirtAddr :=
  if start.val < stop.val then ⟨stop.val - 1⟩ else start

theorem num_lastOf (start stop : VirtAddr) (h : start.num < stop.num) :
    (lastOf start stop).num = stop.num - 1 := by
  have hone : (1 : Word).toNat = 1 := rfl
  rw [lastOf, if_pos (UInt64.lt_iff_toNat_lt.2 h), VirtAddr.num_mk, UInt64.toNat_sub_of_le]
  · rfl
  · rw [UInt64.le_iff_toNat_le, hone]
    exact Nat.lt_of_le_of_lt (Nat.zero_le _) h

theorem lastOf_of_le (start stop : VirtAddr) (h : stop.num ≤ start.num) :
    lastOf start stop = start :=
  if_neg fun hlt => Nat.not_lt.2 h (UInt64.lt_iff_toNat_lt.1 hlt)

theorem rootFor_of_high {roots : Roots} (hroots : s.roots = some roots)
    (hstart : start.high = true) (hlast : (lastOf start stop).high = true) :
    s.rootFor start stop = .ok roots.high := by
  unfold lastOf at hlast
  simp only [rootFor, hroots, hstart, hlast]

/-- A range of the high half, be it up to its end, has the high root. -/
theorem rootFor_above {roots : Roots} (hroots : s.roots = some roots)
    (hx : 2 ^ 64 - 2 ^ 47 ≤ x) (hxy : x < y) (hy : y ≤ 2 ^ 64) :
    s.rootFor (.ofNat x) (.ofNat y) = .ok roots.high := by
  have hx' := VirtAddr.num_ofNat_high hx (by omega)
  have hhigh : (VirtAddr.ofNat x).high = true := VirtAddr.high_eq_true (by omega)
  refine rootFor_of_high hroots hhigh ?_
  rcases Nat.lt_or_eq_of_le hy with hlt | rfl
  · have hy' := VirtAddr.num_ofNat_high (n := y) (by omega) hlt
    have hlast := num_lastOf (.ofNat x) (.ofNat y) (by omega)
    exact VirtAddr.high_eq_true (by omega)
  · have hend : (VirtAddr.ofNat (2 ^ 64)).num = 0 := by decide
    rw [lastOf_of_le _ _ (by omega)]
    exact hhigh

section Routes

variable (h : InHighHalf s)

include h

theorem InHighHalf.rootFor_of_low (hstart : start.high = false)
    (hlast : (lastOf start stop).high = false) :
    s.rootFor start stop = .error .lowHalfRetired := by
  obtain ⟨roots, hroots⟩ := h.roots
  unfold lastOf at hlast
  simp only [rootFor, hroots, hstart, hlast, h.live, if_true]

theorem InHighHalf.rootFor_of_across (hstart : start.high = false)
    (hlast : (lastOf start stop).high = true) : s.rootFor start stop = .error .badRange := by
  obtain ⟨roots, hroots⟩ := h.roots
  unfold lastOf at hlast
  simp only [rootFor, hroots, hstart, hlast]

/-- A range that ends before the low half does is refused, since that half is retired. -/
theorem InHighHalf.rootFor_below (hxy : x < y) (hy : y < 2 ^ 47) :
    s.rootFor (.ofNat x) (.ofNat y) = .error .lowHalfRetired := by
  have hx := VirtAddr.num_ofNat_low (n := x) (by omega)
  have hy' := VirtAddr.num_ofNat_low hy
  have hlast := num_lastOf (.ofNat x) (.ofNat y) (by omega)
  exact h.rootFor_of_low (VirtAddr.high_eq_false (by omega)) (VirtAddr.high_eq_false (by omega))

/-- Where the low half ends, the canonical end is in the high half, and so is the byte before. -/
theorem InHighHalf.rootFor_edge (hx : x < 2 ^ 47) :
    s.rootFor (.ofNat x) (.ofNat (2 ^ 47)) = .error .badRange := by
  have hx' := VirtAddr.num_ofNat_low hx
  have hend : (VirtAddr.ofNat (2 ^ 47)).num = 2 ^ 64 - 2 ^ 47 := by decide
  have hlast := num_lastOf (.ofNat x) (.ofNat (2 ^ 47)) (by omega)
  exact h.rootFor_of_across (VirtAddr.high_eq_false (by omega)) (VirtAddr.high_eq_true (by omega))

theorem InHighHalf.rootFor_across (hx : x < 2 ^ 47) (hlow : 2 ^ 64 - 2 ^ 47 < y)
    (hy : y < 2 ^ 64) : s.rootFor (.ofNat x) (.ofNat y) = .error .badRange := by
  have hx' := VirtAddr.num_ofNat_low hx
  have hy' := VirtAddr.num_ofNat_high (by omega) hy
  have hlast := num_lastOf (.ofNat x) (.ofNat y) (by omega)
  exact h.rootFor_of_across (VirtAddr.high_eq_false (by omega)) (VirtAddr.high_eq_true (by omega))

/-- Where the high half ends, the end is 0, so the range counts as empty and is judged by its
start. -/
theorem InHighHalf.rootFor_wrapped (hx : x < 2 ^ 47) :
    s.rootFor (.ofNat x) (.ofNat (2 ^ 64)) = .error .lowHalfRetired := by
  have hx' := VirtAddr.num_ofNat_low hx
  have hend : (VirtAddr.ofNat (2 ^ 64)).num = 0 := by decide
  have hlast := lastOf_of_le (.ofNat x) (.ofNat (2 ^ 64)) (by omega)
  have hlow : (VirtAddr.ofNat x).high = false := VirtAddr.high_eq_false (by omega)
  exact h.rootFor_of_low hlow (by rw [hlast]; exact hlow)

/-! ## Requests -/

theorem InHighHalf.run_unmap_refused {e : MapError} (hv : v.Canonical)
    (hroot : s.rootFor (.ofNat (v.num / 4096 * 4096)) (.ofNat (v.num / 4096 * 4096 + 4096)) =
      .error e) : (unmap v).run s = .ok (.error e) s := by
  obtain ⟨hfloor, hend⟩ := VirtAddr.page_eq_ofNat hv
  exact Space.run_unmap_refused h.mode (by rw [hend, hfloor]; exact hroot)

/-- A page of the high half is unmapped if it has a leaf, and else nothing is done. -/
theorem InHighHalf.run_unmap_high (hv : 2 ^ 64 - 2 ^ 47 ≤ v.num) :
    if (s.entry v).isValid then ∃ s', (unmap v).run s = .ok (.ok ()) s'
    else (unmap v).run s = .ok (.error .unmapped) s := by
  obtain ⟨roots, hroots⟩ := h.roots
  have hcanonical := (v.canonical_iff).2 (Or.inr hv)
  have hlt := v.num_lt
  obtain ⟨hfloor, hend⟩ := VirtAddr.page_eq_ofNat hcanonical
  have hroot : s.rootFor v.floor (v.floor.add pageSize) = .ok roots.high := by
    rw [hend, hfloor]
    exact rootFor_above hroots (by omega) (by omega) (by omega)
  have hrun := run_unmap_of_root h.mode hroot
  have hentry : s.entry v = s.memory.lookup roots.high v.floor := by
    rw [lookup_eq_of_trail (VirtAddr.trail_floor hcanonical), entry, hroots]
    simp only [VirtAddr.high_eq_true (v := v) (by omega), if_true]
    rfl
  rw [hentry]
  rcases Tables.unmapPage_cases s.memory roots.high v.floor with
    ⟨hunmap, hempty⟩ | ⟨t, b, -, hvalid, hunmap, -⟩
  · have hfirst : (Space.onBoard (Tables.unmapPage s.memory.frames.window roots.high v.floor)).run s
        = .ok (.error .unmapped) s := run_onMemory (s := s) hunmap
    rw [hempty, if_neg (by decide), hrun, unmapBelow]
    exact run_bindE_fail hfirst
  · have hfirst : (Space.onBoard (Tables.unmapPage s.memory.frames.window roots.high v.floor)).run s
        = .ok (.ok (s.memory.lookup roots.high v.floor))
          (s.withMemory ⟨b, s.memory.frames⟩) := run_onMemory (s := s) hunmap
    rw [hvalid, if_pos rfl]
    rw [unmapBelow, run_bindE_ok hfirst] at hrun
    exact ⟨_, hrun⟩

/-- How requests for the two halves are answered. What is refused leaves everything as it is. -/
structure Routed (s : Space) : Prop where
  /-- The low half is retired: its pages are refused, but for the last one. -/
  unmap_low : ∀ v : VirtAddr, v.num < 2 ^ 47 - 4096 →
    (unmap v).run s = .ok (.error .lowHalfRetired) s
  /-- The last page of the low half is refused as one that crosses the halves. -/
  unmap_last : ∀ v : VirtAddr, 2 ^ 47 - 4096 ≤ v.num → v.num < 2 ^ 47 →
    (unmap v).run s = .ok (.error .badRange) s
  /-- A page of the high half, the last one included, is unmapped exactly if it has a leaf. -/
  unmap_high : ∀ v : VirtAddr, 2 ^ 64 - 2 ^ 47 ≤ v.num →
    if (s.entry v).isValid then ∃ s', (unmap v).run s = .ok (.ok ()) s'
    else (unmap v).run s = .ok (.error .unmapped) s
  /-- A range that ends before the low half does is refused, since that half is retired. -/
  map_low : ∀ x y p f, x < y → y < 2 ^ 47 →
    (mapRange (.ofNat x) (.ofNat y) p f).run s = .ok (.error .lowHalfRetired) s
  /-- A range that ends with the low half is refused as one that crosses the halves. -/
  map_edge : ∀ x p f, x < 2 ^ 47 →
    (mapRange (.ofNat x) (.ofNat (2 ^ 47)) p f).run s = .ok (.error .badRange) s
  /-- So is a range from the low half into the high half. -/
  map_across : ∀ x y p f, x < 2 ^ 47 → 2 ^ 64 - 2 ^ 47 < y → y < 2 ^ 64 →
    (mapRange (.ofNat x) (.ofNat y) p f).run s = .ok (.error .badRange) s
  /-- But one from the low half to the end of the high half is refused as one of the low half. -/
  map_wrapped : ∀ x p f, x < 2 ^ 47 →
    (mapRange (.ofNat x) (.ofNat (2 ^ 64)) p f).run s = .ok (.error .lowHalfRetired) s

theorem routed_of_inHighHalf : Routed s where
  unmap_low v hv := by
    have hcanonical := (v.canonical_iff).2 (Or.inl (by omega))
    exact h.run_unmap_refused hcanonical (h.rootFor_below (by omega) (by omega))
  unmap_last v hlow hv := by
    have hcanonical := (v.canonical_iff).2 (Or.inl hv)
    refine h.run_unmap_refused hcanonical ?_
    have hend : v.num / 4096 * 4096 + 4096 = 2 ^ 47 := by omega
    rw [hend]
    exact h.rootFor_edge (by omega)
  unmap_high v hv := h.run_unmap_high hv
  map_low x y p f hxy hy := run_mapNamed_refused h.mode (h.rootFor_below hxy hy)
  map_edge x p f hx := run_mapNamed_refused h.mode (h.rootFor_edge hx)
  map_across x y p f hx hlow hy := run_mapNamed_refused h.mode (h.rootFor_across hx hlow hy)
  map_wrapped x p f hx := run_mapNamed_refused h.mode (h.rootFor_wrapped hx)

end Routes

/-- In every state of every run in which the kernel is in the high half, pages and ranges of the
low half are refused as retired, unless they reach the end of that half: those are refused as
crossing the halves. No refusal changes anything. -/
theorem Later.routed (h : Later (fresh c l b w) s) (hmode : s.mode = .resolved) : Routed s :=
  routed_of_inHighHalf (h.inHighHalf hmode)

/-- The sample board after its boot: the first and the last page of the low half. -/
theorem Later.routed_sample :
    ∃ s, boot (fresh sampleConfig SampleBoard.layout sampleBoard .identity) = .ok .resolved s ∧
      s.mode = .resolved ∧
      (unmap ⟨0⟩).run s = .ok (.error .lowHalfRetired) s ∧
      (unmap ⟨0x7FFFFFFFF000⟩).run s = .ok (.error .badRange) s := by
  obtain ⟨s, hboot⟩ := boot_resolves_sample
  have hmode := (inHighHalf_of_boot rfl hboot).mode
  have hrouted := Later.routed (later_of_boot hboot) hmode
  exact ⟨s, hboot, hmode, hrouted.unmap_low _ (by decide),
    hrouted.unmap_last _ (by decide) (by decide)⟩

end Space

end HighHalf
