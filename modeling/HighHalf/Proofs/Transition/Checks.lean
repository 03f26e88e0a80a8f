import HighHalf.Proofs.Transition.Dual

/-!
# What the checks have established

Before address resolution is turned on, the entries that both trees hold for every page of every
region are looked at, and so are the relocation table and the stack pointer. Checks that are
passed leave memory as it is.

## Main definitions

* `Transition.Verified`: both aliases of every page of every region show that page
-/

namespace HighHalf

open Memory Tables

/-- An entry shows the page at `p`, and where code runs it lets the page run. -/
structure Region.Shown (region : Region) (p : PhysAddr) (e : Entry) : Prop where
  leaf : e.isLeaf = true
  addr : e.addr = p
  executable : region.executable = true → e.flags.executable = true

/-- A byte has the leaf of its page, so it stands for itself if the page is shown. -/
theorem Region.Shown.resolve {region : Region} {m : Memory} {root p q : PhysAddr} {u v : VirtAddr}
    (h : region.Shown q (m.lookup root u)) (hq : q.num = p.num / 4096 * 4096)
    (htrail : v.trail 4 = u.trail 4) (hplace : v.num % 4096 = p.num % 4096) :
    Tables.resolve m.board.ram m.frames.window root v = some p := by
  have hlookup : Tables.lookup m.board.ram m.frames.window root v = m.lookup root u :=
    lookup_eq_of_trail htrail
  have hp := p.num_lt
  rw [Tables.resolve, hlookup, h.leaf, h.addr, if_pos rfl, Option.some.injEq]
  apply PhysAddr.num_inj
  have hnum : q.val.toNat = q.num := rfl
  rw [PhysAddr.num_mk, UInt64.toNat_add, VirtAddr.num_inPage, hnum]
  omega

namespace Transition

variable {s s' : Space} {region : Region} {regions : List Region} {roots : Roots} {p : PhysAddr}
  {v : VirtAddr} {e : Entry} {r : PhysRange} {i n : Nat} {c : MemoryConfig} {l : ImageLayout}

/-- Both aliases of page `i` of a range show that page. -/
def ShownAt (m : Memory) (roots : Roots) (region : Region) (r : PhysRange) (i : Nat) : Prop :=
  region.Shown (r.step i) (m.lookup roots.low (r.step i).identity) ∧
    region.Shown (r.step i) (m.lookup roots.high ((r.step i).highAlias highBase))

/-- Both aliases of every page of every region show that page. -/
def Verified (m : Memory) (roots : Roots) (regions : List Region) : Prop :=
  ∀ region ∈ regions, ∃ r, region.range.widened = .ok r ∧
    ∀ i < r.steps, ShownAt m roots region r i

theorem checkEntry_eq_ok_iff :
    (checkEntry region p v e).run s = .ok (.ok ()) s' ↔ s' = s ∧ region.Shown p e := by
  unfold checkEntry
  dsimp only
  by_cases hwrong : (!e.isLeaf || e.addr ≠ p : Bool) = true
  · rw [if_pos hwrong]
    constructor
    · intro h
      cases h
    · rintro ⟨-, hshown⟩
      rw [hshown.leaf, hshown.addr] at hwrong
      simp at hwrong
  · rw [if_neg hwrong]
    simp only [Bool.or_eq_true, Bool.not_eq_true', decide_eq_true_eq, not_or, Bool.not_eq_false,
      not_not] at hwrong
    by_cases hstuck : (region.executable && !e.flags.executable) = true
    · rw [if_pos hstuck]
      constructor
      · intro h
        cases h
      · rintro ⟨-, hshown⟩
        rw [Bool.and_eq_true] at hstuck
        rw [hshown.executable hstuck.1] at hstuck
        simp at hstuck
    · rw [if_neg hstuck]
      constructor
      · intro h
        cases h
        refine ⟨rfl, hwrong.1, hwrong.2, fun hexec => ?_⟩
        simpa [hexec] using hstuck
      · rintro ⟨rfl, -⟩
        rfl

theorem checkPages_eq_ok_iff :
    (checkPages roots highBase region r i n).run s = .ok (.ok ()) s' ↔
      s' = s ∧ ∀ j, i ≤ j → j < i + n → ShownAt s.memory roots region r j := by
  induction n generalizing i with
  | zero =>
    constructor
    · intro h
      cases h
      exact ⟨rfl, fun j hj hj' => by omega⟩
    · rintro ⟨rfl, -⟩
      rfl
  | succ n ih =>
    unfold checkPages
    constructor
    · intro h
      obtain ⟨s₁, s₂, hget, hrest₁⟩ := exists_of_run_bindE h
      cases hget
      obtain ⟨_, s₃, hlow, hrest₂⟩ := exists_of_run_bindE hrest₁
      obtain ⟨rfl, hlow⟩ := checkEntry_eq_ok_iff.1 hlow
      obtain ⟨_, s₄, hhigh, hrest₃⟩ := exists_of_run_bindE hrest₂
      obtain ⟨rfl, hhigh⟩ := checkEntry_eq_ok_iff.1 hhigh
      obtain ⟨rfl, hlater⟩ := ih.1 hrest₃
      refine ⟨rfl, fun j hj hj' => ?_⟩
      rcases Nat.eq_or_lt_of_le hj with rfl | hj
      · exact ⟨hlow, hhigh⟩
      · exact hlater j hj (by omega)
    · rintro ⟨rfl, hall⟩
      obtain ⟨hlow, hhigh⟩ := hall i (Nat.le_refl i) (by omega)
      refine (run_bindE_ok (run_getE s')).trans ?_
      refine (run_bindE_ok (checkEntry_eq_ok_iff.2 ⟨rfl, hlow⟩)).trans ?_
      refine (run_bindE_ok (checkEntry_eq_ok_iff.2 ⟨rfl, hhigh⟩)).trans ?_
      exact ih.2 ⟨rfl, fun j hj hj' => hall j (by omega) (by omega)⟩

/-- All pages of all regions are looked at. -/
theorem verified_of_run (hrun : (checkRegions roots highBase regions).run s = .ok (.ok n) s') :
    s' = s ∧ Verified s.memory roots regions := by
  induction regions generalizing s s' n with
  | nil =>
    cases hrun
    exact ⟨rfl, nofun⟩
  | cons region rest ih =>
    unfold checkRegions at hrun
    -- A region's pages are checked before those of the later regions.
    obtain ⟨r, s₁, hcheck, hrest₁⟩ := exists_of_run_bindE hrun
    obtain ⟨hr, rfl⟩ := exists_of_checkE hcheck
    obtain ⟨_, s₂, hpages, hrest₂⟩ := exists_of_run_bindE hrest₁
    obtain ⟨rfl, hshown⟩ := checkPages_eq_ok_iff.1 hpages
    obtain ⟨k, s₃, hmore, hdone⟩ := exists_of_run_bindE hrest₂
    obtain ⟨rfl, hlater⟩ := ih hmore
    cases hdone
    refine ⟨rfl, List.forall_mem_cons.2 ⟨⟨r, hr, fun i hi => ?_⟩, hlater⟩⟩
    exact hshown i (Nat.zero_le i) (by omega)

/-! ## Every byte of a checked region -/

/-- Every byte of a region that was checked is found through both roots. -/
theorem Verified.resolves {m : Memory} (h : Verified m roots regions) :
    ∀ region ∈ regions, ∃ r, region.range.widened = .ok r ∧ ∀ p, r.contains p = true →
      Tables.resolve m.board.ram m.frames.window roots.low p.identity = some p ∧
        Tables.resolve m.board.ram m.frames.window roots.high (p.highAlias highBase) = some p := by
  intro region hmem
  obtain ⟨r, hr, hshown⟩ := h region hmem
  refine ⟨r, hr, fun p hp => ?_⟩
  rw [PhysRange.contains_iff] at hp
  obtain ⟨hlow, hhigh⟩ : r.start.num ≤ p.num ∧ p.num < r.stop.num := hp
  have hstart := (PhysRange.num_widened hr).1
  have hsize : r.size.toNat = r.stop.num - r.start.num := r.size_toNat
  have hindex : (p.num - r.start.num) / 4096 < r.steps := by
    unfold PhysRange.steps
    omega
  obtain ⟨hidentity, halias⟩ := hshown _ hindex
  have hpage : (r.step ((p.num - r.start.num) / 4096)).num = p.num / 4096 * 4096 := by
    rw [PhysRange.num_step hindex]
    omega
  constructor
  · have hmod := VirtAddr.num_identity_mod p
    have hmod' := VirtAddr.num_identity_mod (r.step ((p.num - r.start.num) / 4096))
    exact hidentity.resolve hpage (VirtAddr.trail_four_eq (by omega)) (by omega)
  · have hmod := VirtAddr.num_highAlias_mod p
    have hmod' := VirtAddr.num_highAlias_mod (r.step ((p.num - r.start.num) / 4096))
    exact halias.resolve hpage (VirtAddr.trail_four_eq (by omega)) (by omega)

/-- What is known once all checks have been passed. -/
structure Checks (c : MemoryConfig) (l : ImageLayout) (roots : Roots) (m : Memory) : Prop where
  verified : ∃ regions, Region.all c l = .ok regions ∧ Verified m roots regions
  relocations : ∃ n, (relocations l).validate m.board.ram m.frames.window l.data = .ok n
  stack : l.stack.holds m.board.cpu.behaviour.stackPointer = true

theorem checks_of_run (hwidth : c.highBase = highBase)
    (hrun : (check c l roots).run s = .ok (.ok ()) s') :
    Checks c l roots s.memory ∧ ∃ b, s' = s.withMemory { s.memory with board := b } ∧
      b.ram = s.memory.board.ram := by
  have hram := (emits_checkAll (P := fun _ => False) c l roots).ram_eq (fun _ => id) hrun
  unfold check at hrun
  dsimp only at hrun
  rw [hwidth] at hrun
  obtain ⟨regions, s₁, hcheck, hrest₁⟩ := exists_of_run_bindE hrun
  obtain ⟨hregions, rfl⟩ := exists_of_checkE hcheck
  obtain ⟨pages, s₂, hpages, hrest₂⟩ := exists_of_run_bindE hrest₁
  obtain ⟨rfl, hverified⟩ := verified_of_run hpages
  obtain ⟨s₃, s₄, hget, hrest₃⟩ := exists_of_run_bindE hrest₂
  cases hget
  cases hvalid : (relocations l).validate s₂.memory.board.ram s₂.memory.frames.window l.data with
  | error e =>
    rw [hvalid] at hrest₃
    cases hrest₃
  | ok pointers =>
    rw [hvalid] at hrest₃
    obtain ⟨sp, s₅, hsp, hrest₄⟩ := exists_of_run_bindE hrest₃
    obtain ⟨b₅, hb₅, rfl⟩ := Space.exists_of_board (exists_of_lift hsp)
    cases hb₅
    by_cases hout : (!l.stack.holds s₂.memory.board.cpu.behaviour.stackPointer) = true
    · rw [if_pos hout] at hrest₄
      cases hrest₄
    · rw [if_neg hout] at hrest₄
      obtain ⟨s₆, s₇, hget, hrest₅⟩ := exists_of_run_bindE hrest₄
      cases hget
      obtain ⟨conflicts, s₈, hconflicts, hrest₆⟩ := exists_of_run_bindE hrest₅
      obtain ⟨b₈, -, rfl⟩ := Space.exists_of_board (exists_of_lift hconflicts)
      refine ⟨⟨⟨regions, hregions, hverified⟩, ⟨pointers, hvalid⟩, by simpa using hout⟩, ?_⟩
      split at hrest₆
      · obtain ⟨_, s₉, hnote, hrest₇⟩ := exists_of_run_bindE hrest₆
        obtain ⟨b₉, -, rfl⟩ := Space.exists_of_board (exists_of_lift hnote)
        obtain ⟨b, -, rfl⟩ := Space.exists_of_board (exists_of_lift hrest₇)
        exact ⟨b, rfl, hram⟩
      · obtain ⟨b, -, rfl⟩ := Space.exists_of_board (exists_of_lift hrest₆)
        exact ⟨b, rfl, hram⟩

end Transition

end HighHalf
