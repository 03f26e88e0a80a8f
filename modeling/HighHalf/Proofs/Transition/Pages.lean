import HighHalf.Proofs.Address.Canonical
import HighHalf.Proofs.Boot.Resolved

/-!
# The pages of a region

A region is given by two addresses of any alignment, and what is mapped and what is checked are
the pages around them. The mapper counts those pages from a number of bytes and goes up from two
virtual addresses; the checks step through physical addresses. Both go through the same list,
as long as the mapper's virtual addresses do not come round to where they began: those have 48
bits, so of a region of `2 ^ 48` bytes or more the mapper writes what is left after dividing its
size by `2 ^ 48`, and the checks look at more than was written.

## Main definitions

* `PhysRange.Enumerates`: what it is for a range to list the pages around another
* `Region.pages`, `Region.reached`: the pages that are checked, and those that are written
* `Transition.overwritten`: leaves after a list of pages was written at their aliases
-/

namespace HighHalf

/-! ## The pages around a range -/

namespace PhysRange

variable {r w : PhysRange} {p : PhysAddr}

theorem mem_pages : p ∈ r.pages ↔ ∃ i < r.steps, r.step i = p := by
  simp only [pages, List.mem_map, List.mem_range]

theorem pairwise_pages (r : PhysRange) : r.pages.Pairwise fun p q => p.num < q.num := by
  rw [pages, List.pairwise_map]
  refine List.pairwise_lt_range.imp_of_mem fun {i j} hi hj hlt => ?_
  rw [List.mem_range] at hi hj
  rw [num_step hi, num_step hj]
  omega

/-- The pages of whole pages are those inside. -/
theorem mem_pages_iff (hstart : r.start.num % 4096 = 0) (hstop : r.stop.num % 4096 = 0) :
    p ∈ r.pages ↔ p.num % 4096 = 0 ∧ r.start.num ≤ p.num ∧ p.num + 4096 ≤ r.stop.num := by
  have hsize : r.size.toNat = r.stop.num - r.start.num := r.size_toNat
  have hsteps : r.steps = (r.size.toNat + 4095) / 4096 := rfl
  rw [mem_pages]
  constructor
  · rintro ⟨i, hi, rfl⟩
    rw [num_step hi]
    omega
  · rintro ⟨haligned, hlow, hhigh⟩
    have hi : (p.num - r.start.num) / 4096 < r.steps := by omega
    refine ⟨(p.num - r.start.num) / 4096, hi, PhysAddr.num_inj ?_⟩
    rw [num_step hi]
    omega

/-- Pages and sizes agree while a partial last page can be rounded up. -/
theorem pageCount_eq (h : r.size.toNat + 4095 < 2 ^ 64) :
    ∃ n, r.pageCount = .ok n ∧ n.toNat = r.pages.length := by
  have hmask : pageMask.toNat = 4095 := rfl
  refine ⟨(r.size + pageMask) >>> pageShift, ?_, ?_⟩
  · rw [pageCount, Word.add_of_lt (by rw [hmask]; exact h)]
    rfl
  · rw [length_pages, UInt64.toNat_shiftRight, Nat.shiftRight_eq_div_pow, UInt64.toNat_add, hmask,
      Nat.mod_eq_of_lt h]
    rfl

/-- How many of its pages a range gets to before 48 bits of address come round. -/
def reach (r : PhysRange) : Nat := r.size.toNat % 2 ^ 48 / 4096

/-- What a range gets to lies below the end of the high half. -/
def Stays (r : PhysRange) : Prop := r.start.num % 2 ^ 47 + r.size.toNat % 2 ^ 48 < 2 ^ 47

theorem reach_le_steps (r : PhysRange) : r.reach ≤ r.steps := by
  unfold reach steps
  omega

/-- The pages of `w` are those that hold a byte of `r`: they come from below, none twice, and
they are counted and bounded by `w`. -/
structure Enumerates (r w : PhysRange) : Prop where
  ascending : w.pages.Pairwise fun p q => p.num < q.num
  touched : ∀ p, p ∈ w.pages ↔
    p.aligned = true ∧ ∃ b, r.contains b = true ∧ p.num ≤ b.num ∧ b.num < p.num + 4096
  counted : ∃ n, w.pageCount = .ok n ∧ n.toNat = w.pages.length
  inside : ∀ p, p.aligned = true →
    (p ∈ w.pages ↔ w.start.num ≤ p.num ∧ p.num + 4096 ≤ w.stop.num)

/-- A page lies in the widened range if and only if it holds a byte of the range: its first byte,
or the first byte of the range. -/
theorem touched_iff (h : r.widened = .ok w) (hlt : r.start.num < r.stop.num)
    (hp : p.num % 4096 = 0) :
    (∃ b, r.contains b = true ∧ p.num ≤ b.num ∧ b.num < p.num + 4096) ↔
      w.start.num ≤ p.num ∧ p.num + 4096 ≤ w.stop.num := by
  obtain ⟨hstart, hstop⟩ := num_widened h
  have hcontains : ∀ b, r.contains b = true ↔ r.start.num ≤ b.num ∧ b.num < r.stop.num :=
    r.contains_iff
  simp only [hcontains]
  constructor
  · rintro ⟨b, hb, hb'⟩
    omega
  · rintro ⟨hlow, hhigh⟩
    by_cases hfirst : r.start.num ≤ p.num
    · exact ⟨p, by omega, by omega⟩
    · exact ⟨r.start, by omega, by omega⟩

theorem enumerates_widened (h : r.widened = .ok w) (hlt : r.start.num < r.stop.num)
    (htop : r.stop.num ≤ 2 ^ 64 - 4096) : r.Enumerates w := by
  obtain ⟨hstart, hstop⟩ := num_widened h
  have hsize : w.size.toNat = w.stop.num - w.start.num := w.size_toNat
  have hmem : ∀ p, p ∈ w.pages ↔
      p.num % 4096 = 0 ∧ w.start.num ≤ p.num ∧ p.num + 4096 ≤ w.stop.num :=
    fun p => mem_pages_iff (by omega) (by omega)
  refine ⟨w.pairwise_pages, fun p => ?_, pageCount_eq (by omega), fun p hp => ?_⟩
  · rw [hmem, PhysAddr.aligned_iff]
    exact and_congr_right fun hp => (touched_iff h hlt hp).symm
  · rw [hmem, and_iff_right ((PhysAddr.aligned_iff p).1 hp)]

end PhysRange

namespace Region

/-- The pages around a region; none if rounding up leaves 64 bits. -/
def pages (region : Region) : List PhysAddr :=
  match region.range.widened with
  | .ok w => w.pages
  | .error _ => []

/-- The pages of a region that its virtual addresses get to before they come round. -/
def reached (region : Region) : List PhysAddr :=
  match region.range.widened with
  | .ok w => w.pages.take w.reach
  | .error _ => []

/-- The pages around a region are fewer bytes than there are virtual addresses. -/
def Short (region : Region) : Prop :=
  ∀ w, region.range.widened = .ok w → w.size.toNat < 2 ^ 48

theorem reached_eq {region : Region} {w : PhysRange} (h : region.range.widened = .ok w) :
    region.reached = w.pages.take w.reach := by
  rw [reached, h]

theorem pages_eq {region : Region} {w : PhysRange} (h : region.range.widened = .ok w) :
    region.pages = w.pages := by
  rw [pages, h]

/-- All pages of a region are reached exactly if it is not too long. -/
theorem reached_eq_pages_iff {region : Region} : region.reached = region.pages ↔ region.Short := by
  cases hw : region.range.widened with
  | error e =>
    rw [reached, pages, Short, hw]
    exact ⟨fun _ => nofun, fun _ => rfl⟩
  | ok w =>
    obtain ⟨hstart, hstop⟩ := PhysRange.num_widened hw
    have hsize : w.size.toNat = w.stop.num - w.start.num := w.size_toNat
    have hsteps : w.steps = (w.size.toNat + 4095) / 4096 := rfl
    have hreach : w.reach = w.size.toNat % 2 ^ 48 / 4096 := rfl
    rw [reached_eq hw, pages_eq hw, List.take_eq_self_iff, PhysRange.length_pages]
    constructor
    · intro hle w' hw'
      cases hw.symm.trans hw'
      omega
    · intro h
      have hlen := h w hw
      omega

end Region

/-- An address is in the page that begins at `u` if it has the slots of `u`. -/
theorem VirtAddr.floor_eq_iff {u v : VirtAddr} (hu : u.Canonical) (hv : v.Canonical)
    (haligned : u.num % 4096 = 0) : v.floor = u ↔ v.trail 4 = u.trail 4 := by
  rw [trail_four_eq_iff hv hu]
  constructor
  · rintro rfl
    rw [num_floor hv]
    omega
  · intro h
    apply num_inj
    rw [num_floor hv]
    omega

namespace Transition

open Memory Tables Space

/-! ## Writing a list of pages -/

/-- The regions one after the other, each with its pages in turn. -/
def listed (pages : Region → List PhysAddr) (regions : List Region) : List (Region × PhysAddr) :=
  regions.flatMap fun region => (pages region).map (region, ·)

/-- The leaves `g` after the listed pages were written one after the other, each at its alias. -/
def overwritten (there : PhysAddr → VirtAddr) (ws : List (Region × PhysAddr))
    (g : VirtAddr → Entry) : VirtAddr → Entry :=
  ws.foldl (fun g w v => if v.floor = there w.2 then leafOf w.2 w.1.flags else g v) g

section Overwritten

variable {there : PhysAddr → VirtAddr} {ws ws' : List (Region × PhysAddr)}
  {g g' : VirtAddr → Entry} {start v : VirtAddr} {region : Region} {p : PhysAddr} {i n : Nat}

theorem overwritten_append (g : VirtAddr → Entry) :
    overwritten there (ws ++ ws') g = overwritten there ws' (overwritten there ws g) :=
  List.foldl_append

/-- Writing pages does not mix addresses. -/
theorem overwritten_congr (h : ∀ v : VirtAddr, v.Canonical → g v = g' v) (hv : v.Canonical) :
    overwritten there ws g v = overwritten there ws g' v := by
  induction ws generalizing g g' with
  | nil => exact h v hv
  | cons w rest ih =>
    refine ih fun u hu => ?_
    dsimp only
    rw [h u hu]

/-- An address outside the pages has the leaf it had. -/
theorem overwritten_of_ne (h : ∀ w ∈ ws, v.floor ≠ there w.2) (g : VirtAddr → Entry) :
    overwritten there ws g v = g v := by
  induction ws generalizing g with
  | nil => rfl
  | cons w rest ih =>
    rw [List.forall_mem_cons] at h
    exact (ih h.2 _).trans (if_neg h.1)

/-- Painting a range is writing its pages at the addresses that the mapper counts. -/
theorem painted_eq_overwritten (hstart : start.num % 4096 = 0)
    (hpages : ∀ j, i ≤ j → j < i + n → there (p.up (4096 * j)) = pageOf start j)
    (hv : v.Canonical) (g : VirtAddr → Entry) :
    painted start p region.flags i n g v =
      overwritten there ((List.range' i n).map fun j => (region, p.up (4096 * j))) g v := by
  induction n generalizing i g with
  | zero => rfl
  | succ n ih =>
    rw [painted, ih (fun j hj hj' => hpages j (by omega) (by omega)), List.range'_succ,
      List.map_cons]
    -- The first page is written first on both sides; what is left is how it is recognized.
    refine overwritten_congr (fun u hu => ?_) hv
    have haligned := (VirtAddr.aligned_iff _).1 (aligned_pageOf hstart i)
    have hpage : u.floor = pageOf start i ↔ u.trail 4 = (pageOf start i).trail 4 :=
      VirtAddr.floor_eq_iff (start.canonical_add _) hu haligned
    dsimp only
    rw [hpages i (Nat.le_refl i) (by omega)]
    simp only [hpage]

end Overwritten

/-! ## The two aliases of a page -/

variable {c : MemoryConfig} {l : ImageLayout} {roots : Roots} {s s' : Space} {region : Region}
  {regions : List Region} {r w : PhysRange} {f : Flags} {root : PhysAddr} {rs held : List PhysAddr}
  {m m' m'' : Memory} {ws ws' : List (Region × PhysAddr)}

/-- A way to find a page in one half: the virtual address agrees with the physical one below bit
47, and goes up with it as long as those bits do not overflow. -/
structure IsAlias (there : PhysAddr → VirtAddr) : Prop where
  canonical : ∀ p, (there p).Canonical
  num_mod : ∀ p, (there p).num % 2 ^ 47 = p.num % 2 ^ 47
  up : ∀ (p : PhysAddr) (n : Nat), p.num % 2 ^ 47 + n < 2 ^ 47 →
    there (p.up n) = (there p).add (UInt64.ofNat n)

theorem isAlias_identity : IsAlias PhysAddr.identity where
  canonical := fun _ => VirtAddr.canonical_ofWord _
  num_mod := fun p => by
    have hmod := VirtAddr.num_identity_mod p
    omega
  up := fun p n _ => by
    rw [PhysAddr.identity, PhysAddr.identity, VirtAddr.add_ofWord, PhysAddr.up]

theorem isAlias_highAlias : IsAlias (·.highAlias highBase) where
  canonical := fun _ => VirtAddr.canonical_ofWord _
  num_mod := fun p => by
    have hnum := VirtAddr.num_highAlias_mod p
    omega
  up := fun p n h => by
    have hval : p.val.toNat = p.num := rfl
    have hnum : (p.up n).num % 2 ^ 47 = p.num % 2 ^ 47 + n := by
      rw [PhysAddr.up, PhysAddr.num_mk, UInt64.toNat_add, UInt64.toNat_ofNat', hval]
      omega
    have hlen : (UInt64.ofNat n).toNat = n :=
      UInt64.toNat_ofNat_of_lt' (by show n < 2 ^ 64; omega)
    have hhigh := VirtAddr.num_highAlias_mod p
    apply VirtAddr.num_inj
    rw [VirtAddr.num_highAlias_mod, VirtAddr.num_add (by omega), hnum, hlen]
    omega

/-- A range that is properly asked for at its high alias stays below the end of the high half. -/
theorem stays_of_proper (h : Proper (r.start.highAlias highBase)
    ((r.start.highAlias highBase).add r.size) r.start f) : r.Stays := by
  have hle := h.le
  have hstart := VirtAddr.num_highAlias_mod r.start
  have hmod := (r.start.highAlias highBase).num_add_mod r.size.toNat
  rw [UInt64.ofNat_toNat] at hmod
  have hlt := ((r.start.highAlias highBase).add r.size).num_lt
  have hcanon := (VirtAddr.canonical_iff _).1 ((r.start.highAlias highBase).canonical_add r.size)
  unfold PhysRange.Stays
  omega

section IsAlias

variable {there : PhysAddr → VirtAddr}

/-- The size of a range that stays counts modulo `2 ^ 48`. -/
theorem IsAlias.num_add_size (ht : IsAlias there) (h : r.Stays) :
    ((there r.start).add r.size).num = (there r.start).num + r.size.toNat % 2 ^ 48 := by
  unfold PhysRange.Stays at h
  have hmod := (there r.start).num_add_mod r.size.toNat
  rw [UInt64.ofNat_toNat] at hmod
  have hlow := ht.num_mod r.start
  have hlt := (there r.start).num_lt
  have hlt' := ((there r.start).add r.size).num_lt
  have hcanon := (VirtAddr.canonical_iff _).1 (ht.canonical r.start)
  have hcanon' := (VirtAddr.canonical_iff _).1 ((there r.start).canonical_add r.size)
  omega

theorem IsAlias.pagesBetween_eq (ht : IsAlias there) (h : r.Stays) :
    pagesBetween (there r.start) ((there r.start).add r.size) = r.reach := by
  have hlen := ht.num_add_size h
  rw [Tables.pagesBetween_eq (by omega), hlen, PhysRange.reach]
  congr 1
  omega

/-- Whole pages that stay are properly asked for at an alias. -/
theorem IsAlias.proper (ht : IsAlias there) (hstart : r.start.num % 4096 = 0)
    (hsize : r.size.toNat % 4096 = 0) (h : r.Stays) (hf : Entry.Complete f) :
    Proper (there r.start) ((there r.start).add r.size) r.start f := by
  have hmod := ht.num_mod r.start
  have hlen := ht.num_add_size h
  exact ⟨by omega, by omega, hstart, by omega, hf⟩

/-- Whole pages that stay are mapped at an alias while enough frames are left. -/
theorem IsAlias.exists_mapInto (ht : IsAlias there) (name : String)
    (h : s.memory.Sound rs held) (hroot : root ∈ rs) (hstart : r.start.num % 4096 = 0)
    (hsize : r.size.toNat % 4096 = 0) (hstays : r.Stays) (hf : Entry.Complete f)
    (hsupply : tablesBelow r.reach ≤ s.memory.supply) :
    ∃ s', (mapInto root name (there r.start) r f).run s = .ok (.ok ()) s' ∧
      Grows s.memory s'.memory rs held ∧
      s.memory.supply ≤ s'.memory.supply + tablesBelow r.reach := by
  have hcount := ht.pagesBetween_eq hstays
  have hfew : tablesFor (there r.start) r.reach ≤ tablesBelow r.reach := tablesFor_le _ _
  have hroom : r.start.num + 4096 * r.reach ≤ 2 ^ 64 := by
    have hbytes : r.size.toNat = r.stop.num - r.start.num := r.size_toNat
    have hlt := r.start.num_lt
    have htop := r.stop.num_lt
    unfold PhysRange.reach
    omega
  obtain ⟨m, hrun⟩ := mapRange_succeeds h hroot (ht.proper hstart hsize hstays hf)
    (by rw [hcount]; exact hroom) (by rw [hcount]; omega)
  obtain ⟨s', hrun', hmap⟩ := run_mapInto name h hroot hrun
  have hspent := hmap.supply
  rw [hcount] at hspent
  exact ⟨s', hrun', hmap.grows, by omega⟩

/-- The pages that a range gets to, by number. -/
theorem take_pages (region : Region) (r : PhysRange) :
    (r.pages.take r.reach).map (region, ·) =
      (List.range' 0 r.reach).map fun j => (region, r.start.up (4096 * j)) := by
  rw [PhysRange.pages, ← List.map_take, List.take_range, Nat.min_eq_left r.reach_le_steps,
    List.map_map, List.range_eq_range']
  rfl

/-- A range that was mapped has the pages that it gets to written at their aliases. -/
theorem MapsInto.overwritten {v : VirtAddr} (ht : IsAlias there)
    (hm : MapsInto s s' rs held root (there r.start) r region.flags) (hroot : root ∈ rs)
    (hstays : r.Stays) (hv : v.Canonical) :
    s'.memory.lookup root v =
      Transition.overwritten there ((r.pages.take r.reach).map (region, ·))
        (s.memory.lookup root) v := by
  rw [hm.leaves root hroot v, if_pos rfl, ht.pagesBetween_eq hstays, take_pages]
  refine painted_eq_overwritten hm.proper.start_aligned (fun j _ hj => ?_) hv _
  refine ht.up r.start (4096 * j) ?_
  unfold PhysRange.reach at hj
  unfold PhysRange.Stays at hstays
  omega

end IsAlias

/-! ## Both halves -/

/-- Both trees are what they were, with the listed pages written at both of their aliases. -/
structure Overwrites (m m' : Memory) (roots : Roots) (ws : List (Region × PhysAddr)) : Prop where
  low : ∀ v : VirtAddr, v.Canonical → m'.lookup roots.low v =
    overwritten PhysAddr.identity ws (m.lookup roots.low) v
  high : ∀ v : VirtAddr, v.Canonical → m'.lookup roots.high v =
    overwritten (·.highAlias highBase) ws (m.lookup roots.high) v

theorem Overwrites.refl (m : Memory) (roots : Roots) : Overwrites m m roots [] :=
  ⟨fun _ _ => rfl, fun _ _ => rfl⟩

theorem Overwrites.trans (h : Overwrites m m' roots ws) (h' : Overwrites m' m'' roots ws') :
    Overwrites m m'' roots (ws ++ ws') where
  low := fun v hv => by
    rw [h'.low v hv, overwritten_append]
    exact overwritten_congr h.low hv
  high := fun v hv => by
    rw [h'.high v hv, overwritten_append]
    exact overwritten_congr h.high hv

/-- A region that was mapped has the pages that it gets to written at both of their aliases. -/
theorem mapTwice_overwrites (h : s.memory.Sound [roots.high, roots.low] [])
    (hne : roots.low ≠ roots.high)
    (hrun : (mapTwice roots highBase region).run s = .ok (.ok ()) s') :
    (∃ w, region.range.widened = .ok w) ∧
      Overwrites s.memory s'.memory roots (region.reached.map (region, ·)) := by
  obtain ⟨w, hw, hstages⟩ := stages_of_mapTwice hrun
  refine ⟨⟨w, hw⟩, ?_⟩
  rw [Region.reached_eq hw]
  rcases hstages with ⟨hempty, rfl⟩ | ⟨-, s₁, hlow, hhigh⟩
  · rw [PhysRange.reach, PhysRange.size_eq_zero hempty]
    exact Overwrites.refl _ _
  · have hmap₁ := mapsInto_of_run h (by simp) hlow
    have hmap₂ := mapsInto_of_run hmap₁.grows.sound (by simp) hhigh
    -- Only the high alias tells that the low one did not leave its half.
    have hstays := stays_of_proper hmap₂.proper
    constructor
    · intro v hv
      rw [hmap₂.leaves roots.low (by simp) v, if_neg hne]
      exact hmap₁.overwritten isAlias_identity (by simp) hstays hv
    · intro v hv
      rw [hmap₂.overwritten isAlias_highAlias (by simp) hstays hv]
      refine overwritten_congr (fun u _ => ?_) hv
      rw [hmap₁.leaves roots.high (by simp) u, if_neg hne.symm]

/-- Regions that were mapped one after the other have their pages written in that order. -/
theorem mapAllTwice_overwrites (h : s.memory.Sound [roots.high, roots.low] [])
    (hne : roots.low ≠ roots.high)
    (hrun : (mapAllTwice roots highBase regions).run s = .ok (.ok ()) s') :
    (∀ region ∈ regions, ∃ w, region.range.widened = .ok w) ∧
      Overwrites s.memory s'.memory roots (listed Region.reached regions) := by
  induction regions generalizing s with
  | nil =>
    cases hrun
    exact ⟨nofun, Overwrites.refl _ _⟩
  | cons region rest ih =>
    unfold mapAllTwice at hrun
    obtain ⟨_, s₁, hfirst, hrest⟩ := exists_of_run_bindE hrun
    obtain ⟨hw, hwrites⟩ := mapTwice_overwrites h hne hfirst
    obtain ⟨hws, hlater⟩ := ih (mapTwice_spec h hfirst).1.sound hrest
    exact ⟨List.forall_mem_cons.2 ⟨hw, hws⟩, hwrites.trans hlater⟩

/-- A region is mapped at both aliases, however long it is, if what is left of its size stays below
the end of the high half and enough frames are left. -/
theorem exists_mapTwice (h : s.memory.Sound [roots.high, roots.low] [])
    (hw : region.range.widened = .ok w) (hstays : w.Stays) (hf : Entry.Complete region.flags)
    (hsupply : 2 * tablesBelow w.reach ≤ s.memory.supply) :
    ∃ s', (mapTwice roots highBase region).run s = .ok (.ok ()) s' := by
  obtain ⟨hstart, hstop⟩ := PhysRange.num_widened hw
  have hbytes : w.size.toNat = w.stop.num - w.start.num := w.size_toNat
  have hcheck : (liftM region.range.widened : MoveM PhysRange).run s = .ok (.ok w) s := by
    rw [hw]
    rfl
  by_cases hempty : w.isEmpty = true
  · refine ⟨s, (run_bindE_ok hcheck).trans ?_⟩
    rw [if_pos hempty]
    rfl
  · obtain ⟨s₁, hrun₁, hgrows, hspent⟩ := isAlias_identity.exists_mapInto region.name h
      (show roots.low ∈ [roots.high, roots.low] by simp) (by omega) (by omega) hstays hf (by omega)
    obtain ⟨s₂, hrun₂, -, -⟩ := isAlias_highAlias.exists_mapInto region.name hgrows.sound
      (show roots.high ∈ [roots.high, roots.low] by simp) (by omega) (by omega) hstays hf
      (by omega)
    refine ⟨s₂, (run_bindE_ok hcheck).trans ?_⟩
    rw [if_neg hempty]
    exact (run_bindE_ok hrun₁).trans hrun₂

/-! ## Checking a list of pages -/

/-- Check both aliases of one page of a region. -/
def checkPage (roots : Roots) (high : Word) (w : Region × PhysAddr) : MoveM Unit := do
  let memory := (← get).memory
  checkEntry w.1 w.2 (w.2.highAlias high)
    (Tables.lookup memory.board.ram memory.frames.window roots.low w.2.identity)
  checkEntry w.1 w.2 (w.2.highAlias high)
    (Tables.lookup memory.board.ram memory.frames.window roots.high (w.2.highAlias high))

/-- The checks of a region go through its pages by number. -/
theorem checkPages_eq_forM (high : Word) (i n : Nat) :
    checkPages roots high region r i n =
      forM ((List.range' i n).map fun j => (region, r.step j)) (checkPage roots high) := by
  induction n generalizing i with
  | zero => rfl
  | succ n ih =>
    rw [checkPages, List.range'_succ, List.map_cons, List.forM_cons, ← ih]
    simp only [checkPage, bind_assoc]

/-- The checks go through all pages of all regions. -/
theorem checkRegions_eq_forM (high : Word)
    (h : ∀ region ∈ regions, ∃ w, region.range.widened = .ok w) :
    checkRegions roots high regions = (do
      forM (listed Region.pages regions) (checkPage roots high)
      return (listed Region.pages regions).length) := by
  induction regions with
  | nil => rfl
  | cons region rest ih =>
    rw [List.forall_mem_cons] at h
    obtain ⟨⟨w, hw⟩, hrest⟩ := h
    have hcheck : (liftM region.range.widened : MoveM PhysRange) = pure w := by
      rw [hw]
      rfl
    have hlisted : listed Region.pages (region :: rest) =
        w.pages.map (region, ·) ++ listed Region.pages rest := by
      rw [listed, List.flatMap_cons, Region.pages_eq hw]
      rfl
    have hpages : checkPages roots high region w 0 w.steps =
        forM (w.pages.map (region, ·)) (checkPage roots high) := by
      rw [checkPages_eq_forM, PhysRange.pages, List.map_map, List.range_eq_range']
      rfl
    rw [checkRegions, hcheck, pure_bind, hpages, ih hrest, hlisted, List.forM_append,
      List.length_append, List.length_map, PhysRange.length_pages]
    simp only [bind_assoc, pure_bind]

/-! ## What is checked is what was written -/

/-- Mapping both halves writes the pages of RAM in the high half and then those that the regions
get to, in both. -/
theorem mapDual_overwrites (hwidth : c.highBase = highBase)
    (h : s.memory.Sound [roots.high, roots.low] []) (hne : roots.low ≠ roots.high)
    (hrun : (mapDual c l roots).run s = .ok (.ok ()) s') :
    ∃ regions s₁, Region.all c l = .ok regions ∧
      (∀ region ∈ regions, ∃ w, region.range.widened = .ok w) ∧
      (mapInto roots.high "ram-linear" (c.memory.start.highAlias highBase) c.memory .data).run s =
        .ok (.ok ()) s₁ ∧
      (∀ v, s₁.memory.lookup roots.low v = s.memory.lookup roots.low v) ∧
      Overwrites s₁.memory s'.memory roots (listed Region.reached regions) := by
  obtain ⟨regions, s₁, s₂, b, hregions, hram, hall, rfl, hb⟩ := stages_of_mapDual hrun
  rw [hwidth] at hram hall
  have hmap := mapsInto_of_run h (by simp) hram
  obtain ⟨hws, hwrites⟩ := mapAllTwice_overwrites hmap.grows.sound hne hall
  have hsound := (mapAllTwice_spec hmap.grows.sound hall).1.sound
  obtain ⟨-, hsame⟩ := grows_spares hsound ((Memory.keeps_board hb).spares hsound.consistent)
  refine ⟨regions, s₁, hregions, hws, hram, fun v => ?_, fun v hv => ?_, fun v hv => ?_⟩
  · rw [hmap.leaves roots.low (by simp) v, if_neg hne]
  · exact (hsame roots.low (by simp) v).trans (hwrites.low v hv)
  · exact (hsame roots.high (by simp) v).trans (hwrites.high v hv)

/-- The pages around a range are listed as they should be; the regions are written, at both
aliases, page by page as they are listed, up to where their virtual addresses come round; and they
are checked as they are listed, so what is checked is what was written for exactly those regions
that are not too long. -/
theorem pages_written_and_checked :
    (∀ r : PhysRange, r.start.num < r.stop.num → r.stop.num ≤ 2 ^ 64 - 4096 →
      ∃ w, r.widened = .ok w ∧ r.Enumerates w) ∧
    ∀ (c : MemoryConfig) (l : ImageLayout) (roots : Roots) (s s' : Space),
      c.highBase = highBase → s.memory.Sound [roots.high, roots.low] [] →
      roots.low ≠ roots.high → (mapDual c l roots).run s = .ok (.ok ()) s' →
      ∃ regions s₁, Region.all c l = .ok regions ∧
        (mapInto roots.high "ram-linear" (c.memory.start.highAlias highBase) c.memory .data).run s =
          .ok (.ok ()) s₁ ∧
        (∀ v, s₁.memory.lookup roots.low v = s.memory.lookup roots.low v) ∧
        Overwrites s₁.memory s'.memory roots (listed Region.reached regions) ∧
        checkRegions roots c.highBase regions = (do
          forM (listed Region.pages regions) (checkPage roots c.highBase)
          return (listed Region.pages regions).length) ∧
        ∀ region ∈ regions, region.reached = region.pages ↔ region.Short := by
  refine ⟨fun r hlt htop => ?_, fun c l roots s s' hwidth h hne hrun => ?_⟩
  · obtain ⟨w, hw⟩ := PhysRange.exists_widened htop
    exact ⟨w, hw, PhysRange.enumerates_widened hw hlt htop⟩
  · obtain ⟨regions, s₁, hregions, hws, hram, hlow, hwrites⟩ :=
      mapDual_overwrites hwidth h hne hrun
    exact ⟨regions, s₁, hregions, hram, hlow, hwrites, checkRegions_eq_forM c.highBase hws,
      fun _ _ => Region.reached_eq_pages_iff⟩

/-! ## The sample board -/

/-- The sample board gets as far as two new roots with frames left for all tables. -/
theorem exists_roots_sample :
    ∃ (roots : Roots) (s : Space), Laid s.memory roots [] [] ∧ s.ledger.records = #[] ∧
      framesFor sampleConfig SampleBoard.layout ≤ s.memory.supply + 2 := by
  obtain ⟨hstart, hstop, hle, htop⟩ := feasible_sample.whole
  obtain ⟨m, -, hset⟩ := setUp_of_fits ⟨rfl, rfl, rfl, hstart, hosted_sample.shows,
    hosted_sample.inside⟩ fits_sample
  have hsound := sound_of_setup (n := 0) hset hle (by omega)
  have hroom := supply_of_room (n := 0) (k := framesFor sampleConfig SampleBoard.layout) hset
    fits_sample hstart hstop (by decide)
  rcases buildRoots_spec (c := sampleConfig)
      (s := (fresh sampleConfig SampleBoard.layout sampleBoard .identity).withMemory m) hsound with
    ⟨s₁, -, hfew, -⟩ | ⟨roots, m₁, -, hlaid, -, hspent⟩
  · rw [Space.memory_withMemory] at hfew
    have hmany : 2 ≤ framesFor sampleConfig SampleBoard.layout := Nat.le_add_right _ _
    omega
  · rw [Space.memory_withMemory] at hspent
    refine ⟨roots, (fresh sampleConfig SampleBoard.layout sampleBoard .identity).withMemory m₁,
      hlaid, rfl, ?_⟩
    rw [Space.memory_withMemory]
    omega

/-- Two bytes more than a page are three pages. On the sample board the checks look at 19 pages,
and mapping both halves wrote them, the second page of the text among them. -/
theorem pages_written_and_checked_sample :
    (∃ w, (PhysRange.ofWords 0x1FFF 0x3001).widened = .ok w ∧
      (PhysRange.ofWords 0x1FFF 0x3001).Enumerates w ∧ w.pages = [⟨0x1000⟩, ⟨0x2000⟩, ⟨0x3000⟩]) ∧
    ∃ roots s s' regions, (mapDual sampleConfig SampleBoard.layout roots).run s = .ok (.ok ()) s' ∧
      Region.all sampleConfig SampleBoard.layout = .ok regions ∧
      (listed Region.pages regions).length = 19 ∧ (∀ region ∈ regions, region.Short) ∧
      s'.memory.lookup roots.low (.ofWord 0x40001008) = leafOf ⟨0x40001000⟩ .text := by
  obtain ⟨henumerate, hdual⟩ := pages_written_and_checked
  constructor
  · obtain ⟨w, hw, henum⟩ := henumerate (.ofWords 0x1FFF 0x3001) (by decide) (by decide)
    cases hw
    exact ⟨_, rfl, henum, by decide⟩
  · obtain ⟨roots, s, hlaid, hrecords, hsupply⟩ := exists_roots_sample
    have hfits : ∀ n ∈ s.ledger.records, n.Fits := by
      rw [hrecords]
      exact fun n hn => absurd hn (Array.not_mem_empty n)
    rcases needs_mapDual hlaid.sound (c := sampleConfig) rfl feasible_sample.low
        feasible_sample.whole hfits with ⟨a, s', -, -, hfew⟩ | ⟨_, s', hrun, -, -⟩
    · rw [framesFor] at hsupply
      omega
    · obtain ⟨regions, s₁, hregions, -, hlow, hwrites, -, hreached⟩ :=
        hdual sampleConfig SampleBoard.layout roots s s' rfl hlaid.sound hlaid.ne hrun
      have hfresh : ∀ v : VirtAddr, v.Canonical → s₁.memory.lookup roots.low v = .empty := by
        intro v hv
        rw [hlow v, hlaid.low v hv, Area.overlay_nil, ite_self]
      refine ⟨roots, s, s', regions, hrun, hregions, ?_, fun region hmem => ?_, ?_⟩
      · cases hregions
        decide
      · refine (hreached region hmem).1 ?_
        cases hregions
        revert region
        decide
      · have hv := VirtAddr.canonical_ofWord 0x40001008
        rw [hwrites.low _ hv, overwritten_congr hfresh hv]
        cases hregions
        decide

/-! ## A region that is too long -/

/-- A stack of one page more than there are virtual addresses, from the sample board's stack
pointer on. -/
def overlong : Region := ⟨"stack", .ofWords 0x4000F000 0x1000040010000, .data, false⟩

/-- Such a stack is mapped as its first page alone: the page behind it is one of its pages, and is
found at neither alias, so the checks fail. -/
theorem overlong_unwritten :
    overlong.range.start.num < overlong.range.stop.num ∧
      overlong.range.stop.num ≤ 2 ^ 64 - 4096 ∧ ⟨0x40010000⟩ ∈ overlong.pages ∧
      ∃ (roots : Roots) (s s' : Space),
        s.memory.Sound [roots.high, roots.low] [] ∧ roots.low ≠ roots.high ∧
        (mapAllTwice roots highBase [overlong]).run s = .ok (.ok ()) s' ∧
        s'.memory.lookup roots.low (PhysAddr.identity ⟨0x40010000⟩) = .empty ∧
        s'.memory.lookup roots.high (PhysAddr.highAlias ⟨0x40010000⟩ highBase) = .empty ∧
        ∀ n s'', (checkRegions roots highBase [overlong]).run s' ≠ .ok (.ok n) s'' := by
  have hwidened : overlong.range.widened = .ok overlong.range := by decide
  have hpage : ⟨0x40010000⟩ ∈ overlong.pages := by
    rw [Region.pages_eq hwidened, PhysRange.mem_pages_iff (by decide) (by decide)]
    decide
  obtain ⟨roots, s, hlaid, -, hsupply⟩ := exists_roots_sample
  have hmany : 32 ≤ framesFor sampleConfig SampleBoard.layout := by decide
  have hstays : overlong.range.Stays := by
    rw [PhysRange.Stays]
    decide
  obtain ⟨s₂, htwice⟩ := exists_mapTwice hlaid.sound hwidened hstays (by decide)
    (Nat.le_trans (show _ ≤ 30 by decide) (by omega))
  have hrun : (mapAllTwice roots highBase [overlong]).run s = .ok (.ok ()) s₂ :=
    run_bindE_ok htwice
  obtain ⟨-, hwrites⟩ := mapAllTwice_overwrites hlaid.sound hlaid.ne hrun
  have hlisted : listed Region.reached [overlong] = [(overlong, ⟨0x4000F000⟩)] := by
    rw [listed, List.flatMap_singleton, Region.reached_eq hwidened, take_pages]
    decide
  rw [hlisted] at hwrites
  have hlow : s₂.memory.lookup roots.low (PhysAddr.identity ⟨0x40010000⟩) = .empty := by
    have hv := VirtAddr.canonical_ofWord 0x40010000
    have hold := (hlaid.low _ hv).trans (by rw [Area.overlay_nil, ite_self])
    exact (hwrites.low _ hv).trans ((overwritten_of_ne (by decide) _).trans hold)
  have hhigh : s₂.memory.lookup roots.high (PhysAddr.highAlias ⟨0x40010000⟩ highBase) =
      .empty := by
    have hv := VirtAddr.canonical_ofWord (0x40010000 ||| highBase)
    have hold := (hlaid.high _ hv).trans (by rw [Area.overlay_nil, ite_self])
    exact (hwrites.high _ hv).trans ((overwritten_of_ne (by decide) _).trans hold)
  refine ⟨by decide, by decide, hpage, roots, s, s₂, hlaid.sound, hlaid.ne, hrun, hlow, hhigh,
    fun n s'' hpassed => ?_⟩
  -- The checks would have to find a leaf for the second page.
  obtain ⟨-, hverified⟩ := verified_of_run hpassed
  obtain ⟨w, hw, hshown⟩ := hverified overlong (List.mem_singleton.2 rfl)
  cases hwidened.symm.trans hw
  have hleaf := (hshown 1 (by decide)).1.leaf
  rw [show overlong.range.step 1 = ⟨0x40010000⟩ by decide, hlow] at hleaf
  cases hleaf

end Transition

end HighHalf
