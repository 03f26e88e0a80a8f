import HighHalf.Space.Boot
import HighHalf.Proofs.Ledger.Conflicts
import HighHalf.Proofs.Transition.Faithful
import HighHalf.Proofs.Transition.Prepared

/-!
# Boots that succeed

On a processor whose reads give what was stored, the first part of the move is made as soon as
there are frames enough for the tables, code shares no page with what must not run, and the checks
have nothing to object to the image's pointers and the stack.
-/

namespace HighHalf

open Event Board

/-- The physical addresses of a mapping, and the first one behind them, are words. -/
def Mapping.Fits (n : Mapping) : Prop := n.phys.num + (n.stop.num - n.start.num) < 2 ^ 64

theorem Mapping.Fits.sums {n : Mapping} (h : n.Fits) : n.Sums := Nat.le_of_lt h

/-! ## Sizes -/

/-- Frames that are enough for the tables of a number of pages in one half. -/
def tablesBelow (pages : Nat) : Nat := 6 * (pages / 512) + 15

/-- Pages of an area. -/
def Area.pages (a : Area) : Nat := (a.stop - a.start) / 4096

/-- Whole pages that both halves have room for. -/
structure PhysRange.Whole (r : PhysRange) : Prop where
  start_aligned : r.start.num % 4096 = 0
  stop_aligned : r.stop.num % 4096 = 0
  le : r.start.num ≤ r.stop.num
  top : r.stop.num < 2 ^ 47

theorem PhysRange.Low.exists_widened {r : PhysRange} (h : r.Low) : ∃ r', r.widened = .ok r' :=
  PhysRange.exists_widened (by have htop := h.top; omega)

namespace Transition

open Memory Tables

variable {c : MemoryConfig} {l : ImageLayout} {roots : Roots} {s s' : Space} {region : Region}
  {regions : List Region} {r : PhysRange} {f : Flags} {name : String} {root : PhysAddr}
  {start : VirtAddr} {rs held : List PhysAddr} {base : Nat}

/-- The range is asked for `base` bytes up, at `start`. -/
structure AliasOf (base : Nat) (start : VirtAddr) (r : PhysRange) : Prop where
  base_aligned : base % 4096 = 0
  start_eq : start.num = base + r.start.num
  stop_eq : (start.add r.size).num = base + r.stop.num

theorem aliasOf_identity (h : r.Whole) : AliasOf 0 r.start.identity r := by
  have hle := h.le
  have htop := h.top
  have hsize : r.size.toNat = r.stop.num - r.start.num := r.size_toNat
  have hidentity := VirtAddr.num_identity (p := r.start) (by omega)
  refine ⟨rfl, by omega, ?_⟩
  rw [VirtAddr.num_add (by omega)]
  omega

theorem aliasOf_high (h : r.Whole) :
    AliasOf (2 ^ 64 - 2 ^ 47) (r.start.highAlias highBase) r := by
  have hle := h.le
  have htop := h.top
  have hsize : r.size.toNat = r.stop.num - r.start.num := r.size_toNat
  have halias := VirtAddr.num_highAlias (p := r.start) (by omega)
  refine ⟨by decide, by omega, ?_⟩
  rw [VirtAddr.num_add (by omega)]
  omega

/-- Whole pages are properly asked for at an alias that has room for them. -/
theorem proper_alias (h : r.Whole) (halias : AliasOf base start r) (hf : Entry.Complete f) :
    Proper start (start.add r.size) r.start f ∧
      pagesBetween start (start.add r.size) = (r.stop.num - r.start.num) / 4096 := by
  obtain ⟨hstart, hstop, hle, -⟩ := h
  obtain ⟨hbase, hs, he⟩ := halias
  have hforth : start.num ≤ (start.add r.size).num := by omega
  refine ⟨⟨by omega, by omega, hstart, hforth, hf⟩, ?_⟩
  rw [pagesBetween_eq hforth]
  congr 1
  omega

/-! ## Steps that need frames -/

/-- The frames have run out: what was given up for that, and the memory that is left. -/
structure Starved (a : Abort) (m : Memory) : Prop where
  cause : a = ⟨.start, .noRootFrame⟩ ∨ ∃ name, a = ⟨.tablesBuilt, .mapping name .outOfFrames⟩
  supply : m.supply = 0

section Needs

variable {α β : Type} {x : MoveM α} {f : α → MoveM β} {P : α → Space → Prop}
  {P' : α → Space → Prop} {Q : β → Space → Prop} {a : α} {k j : Nat}

/-- With `k` frames the step succeeds and leaves what `P` says. With fewer it may fail, but not
before it has used all of them. -/
def Needs (k : Nat) (x : MoveM α) (s : Space) (P : α → Space → Prop) : Prop :=
  (∃ a s', x.run s = .ok (.error a) s' ∧ Starved a s'.memory ∧ s.memory.supply < k) ∨
    ∃ a s', x.run s = .ok (.ok a) s' ∧ s.memory.supply ≤ s'.memory.supply + k ∧ P a s'

theorem needs_of_ok (hrun : x.run s = .ok (.ok a) s') (hP : P a s')
    (hspent : s.memory.supply ≤ s'.memory.supply + k) : Needs k x s P :=
  Or.inr ⟨a, s', hrun, hspent, hP⟩

/-- What one step after the other needs. -/
theorem Needs.bind (h : Needs k x s P)
    (hf : ∀ a s', x.run s = .ok (.ok a) s' → P a s' → Needs j (f a) s' Q) :
    Needs (k + j) (x >>= f) s Q := by
  rcases h with ⟨a, s', hrun, hstarved, hfew⟩ | ⟨a, s', hrun, hspent, hP⟩
  · exact Or.inl ⟨a, s', run_bindE_fail hrun, hstarved, by omega⟩
  · rcases hf a s' hrun hP with ⟨a', s'', hrun', hstarved, hfew⟩ | ⟨r, s'', hrun', hspent', hQ⟩
    · exact Or.inl ⟨a', s'', (run_bindE_ok hrun).trans hrun', hstarved, by omega⟩
    · exact Or.inr ⟨r, s'', (run_bindE_ok hrun).trans hrun', by omega, hQ⟩

/-- A check that is passed needs nothing. -/
theorem Needs.checked (hrun : x.run s = .ok (.ok a) s) (h : Needs k (f a) s Q) :
    Needs k (x >>= f) s Q := by
  unfold Needs
  rw [run_bindE_ok hrun]
  exact h

theorem Needs.mono (h : Needs k x s P) (hk : k ≤ j) (hP : ∀ a s', P a s' → P' a s') :
    Needs j x s P' := by
  rcases h with ⟨a, s', hrun, hstarved, hfew⟩ | ⟨a, s', hrun, hspent, h⟩
  · exact Or.inl ⟨a, s', hrun, hstarved, by omega⟩
  · exact Or.inr ⟨a, s', hrun, by omega, hP a s' h⟩

end Needs

/-! ## Mapping both halves -/

/-- A region is mapped in one half if there are frames enough. -/
theorem needs_mapInto (name : String) (h : s.memory.Sound rs held) (hroot : root ∈ rs)
    (hwhole : r.Whole) (halias : AliasOf base start r) (hf : Entry.Complete f)
    (hfits : ∀ n ∈ s.ledger.records, n.Fits) :
    Needs (tablesBelow ((r.stop.num - r.start.num) / 4096)) (mapInto root name start r f) s
      fun _ s' => Grows s.memory s'.memory rs held ∧ ∀ n ∈ s'.ledger.records, n.Fits := by
  obtain ⟨hproper, hpages⟩ := proper_alias hwhole halias hf
  have hfew := tablesFor_le start (pagesBetween start (start.add r.size))
  have hle := hwhole.le
  have htop := hwhole.top
  have hspec := mapRange_spec start (start.add r.size) r.start f h hroot
  rw [hpages] at hfew
  cases hrun : (mapRange root start (start.add r.size) r.start f).run s.memory with
  | error e m =>
    rw [hrun] at hspec
    obtain ⟨-, -, hbig⟩ := hspec
    omega
  | ok res m =>
    rw [hrun] at hspec
    rcases res with e | n
    · obtain ⟨-, hno⟩ := hspec
      obtain ⟨rfl, hsupply, hnone⟩ := hno hproper
      rw [hpages] at hsupply
      refine Or.inl ⟨⟨.tablesBuilt, .mapping name .outOfFrames⟩, s.withMemory m, ?_,
        ⟨Or.inr ⟨name, rfl⟩, hnone⟩, ?_⟩
      · exact run_bindE_ok (run_lift (Space.run_onMemory (s := s) hrun))
      · rw [tablesBelow]
        omega
    · obtain ⟨s', hrun', hmaps⟩ := run_mapInto name h hroot hrun
      have hspent := hmaps.supply
      rw [hpages] at hspent
      refine needs_of_ok hrun' ⟨hmaps.grows, fun n hn => ?_⟩ (by rw [tablesBelow]; omega)
      rcases hmaps.records n hn with hold | ⟨hphys, hfirst, hlast⟩
      · exact hfits n hold
      · have hs := halias.start_eq
        have he := halias.stop_eq
        rw [Mapping.Fits, hphys, hfirst, hlast]
        omega

/-- A region is mapped in both halves if there are frames enough. -/
theorem needs_mapTwice (h : s.memory.Sound [roots.high, roots.low] []) (hlow : region.range.Low)
    (hf : Entry.Complete region.flags) (hfits : ∀ n ∈ s.ledger.records, n.Fits) :
    Needs (2 * tablesBelow region.area.pages) (mapTwice roots highBase region) s
      fun _ s' => ∀ n ∈ s'.ledger.records, n.Fits := by
  obtain ⟨r, hr⟩ := hlow.exists_widened
  obtain ⟨hstart, hstop⟩ := PhysRange.num_widened hr
  have hle := hlow.le
  have htop := hlow.top
  have hwhole : r.Whole := ⟨by omega, by omega, by omega, by omega⟩
  have hpages : region.area.pages = (r.stop.num - r.start.num) / 4096 := by
    rw [Area.pages, Region.area, Area.around, hstart, hstop]
  have hcheck : (liftM region.range.widened : MoveM PhysRange).run s = .ok (.ok r) s := by
    rw [hr]
    rfl
  rw [hpages, Nat.two_mul]
  refine Needs.checked hcheck ?_
  by_cases hempty : r.isEmpty = true
  · -- Regions without a byte need no table.
    rw [if_pos hempty]
    exact needs_of_ok rfl hfits (Nat.le_add_right _ _)
  · rw [if_neg hempty]
    refine Needs.bind (needs_mapInto region.name h
      (show roots.low ∈ [roots.high, roots.low] by simp) hwhole (aliasOf_identity hwhole) hf hfits)
      fun _ s₁ _ h₁ => ?_
    obtain ⟨hgrows, hfits₁⟩ := h₁
    exact (needs_mapInto region.name hgrows.sound
      (show roots.high ∈ [roots.high, roots.low] by simp) hwhole (aliasOf_high hwhole) hf
      hfits₁).mono (Nat.le_refl _) fun _ _ h => h.2

/-- Frames that are enough for the tables of all areas in both halves. -/
def tablesOf (areas : List Area) : Nat := 2 * (areas.map fun a => tablesBelow a.pages).sum

theorem needs_mapAllTwice (h : s.memory.Sound [roots.high, roots.low] [])
    (hall : ∀ region ∈ regions, region.range.Low ∧ Entry.Complete region.flags)
    (hfits : ∀ n ∈ s.ledger.records, n.Fits) :
    Needs (tablesOf (regions.map Region.area)) (mapAllTwice roots highBase regions) s
      fun _ s' => ∀ n ∈ s'.ledger.records, n.Fits := by
  induction regions generalizing s with
  | nil => exact needs_of_ok rfl hfits (Nat.le_add_right _ _)
  | cons region rest ih =>
    rw [List.forall_mem_cons] at hall
    obtain ⟨⟨hlow, hf⟩, hrest⟩ := hall
    have hsum : tablesOf ((region :: rest).map Region.area) =
        2 * tablesBelow region.area.pages + tablesOf (rest.map Region.area) := by
      rw [tablesOf, tablesOf, List.map_cons, List.map_cons, List.sum_cons, Nat.mul_add]
    rw [hsum]
    refine Needs.bind (needs_mapTwice h hlow hf hfits) fun _ s₁ hrun hfits₁ => ?_
    exact ih (mapTwice_spec h hrun).1.sound hrest hfits₁

theorem exists_pageOf {p : PhysAddr} (h : p.num < 2 ^ 47 - 4096) :
    ∃ r, PhysRange.pageOf p = .ok r := by
  have hfloor := p.num_floor
  have hsize : pageSize.toNat = 4096 := rfl
  refine ⟨⟨p.floor, ⟨p.floor.val + pageSize⟩⟩, ?_⟩
  rw [PhysRange.pageOf, PhysAddr.add_of_lt (by omega)]
  rfl

/-- Low regions are given whole, and with complete flag words. -/
theorem exists_all (h : l.Low c) :
    ∃ regions, Region.all c l = .ok regions ∧
      ∀ region ∈ regions, region.range.Low ∧ Entry.Complete region.flags := by
  obtain ⟨v, hv⟩ := exists_pageOf h.vectors
  obtain ⟨k, hk⟩ := exists_pageOf h.continuation
  obtain ⟨u, hu⟩ := exists_pageOf h.uart
  have hall : ∃ regions, Region.all c l = .ok regions := by
    rw [Region.all, hv, hk, hu]
    exact ⟨_, rfl⟩
  obtain ⟨regions, hregions⟩ := hall
  refine ⟨regions, hregions, fun region hmem => ⟨h.region hregions region hmem, ?_⟩⟩
  obtain ⟨v, k, u, -, -, -, rfl⟩ := Region.all_eq_ok hregions
  revert region
  simp only [List.forall_mem_cons]
  exact ⟨by decide, by decide, by decide, by decide, by decide, by decide, by decide, nofun⟩

/-- Both halves are mapped if there are frames enough. -/
theorem needs_mapDual (h : s.memory.Sound [roots.high, roots.low] [])
    (hwidth : c.highBase = highBase) (hlow : l.Low c) (hwhole : c.memory.Whole)
    (hfits : ∀ n ∈ s.ledger.records, n.Fits) :
    Needs (tablesBelow (ramArea c).pages + tablesOf (areas c l)) (mapDual c l roots) s
      fun _ s' => ∀ n ∈ s'.ledger.records, n.Fits := by
  obtain ⟨regions, hregions, hall⟩ := exists_all hlow
  rw [mapDual, hwidth, ← Region.map_area_all hregions]
  refine Needs.bind (needs_mapInto "ram-linear" h
    (show roots.high ∈ [roots.high, roots.low] by simp) hwhole (aliasOf_high hwhole)
    (show Entry.Complete .data by decide) hfits) fun _ s₁ _ h₁ => ?_
  obtain ⟨hgrows, hfits₁⟩ := h₁
  have hcheck : (liftM (Region.all c l) : MoveM (List Region)).run s₁ = .ok (.ok regions) s₁ := by
    rw [hregions]
    rfl
  refine Needs.checked hcheck ?_
  refine Needs.bind (j := 0) (needs_mapAllTwice hgrows.sound hall hfits₁) fun _ s₂ _ hfits₂ => ?_
  obtain ⟨b, hadvance, -⟩ := run_advance (p := .tablesBuilt) (q := .dualMapped) rfl s₂.memory.board
  have hlast := run_lift (δ := Abort)
    (Space.run_board (s := { s₂ with live := .dual }) (m := s₂.memory) hadvance)
  exact needs_of_ok ((run_bindE_ok rfl).trans hlast) hfits₂ (Nat.le_refl _)

/-! ## Passing the checks -/

/-- Areas that disagree on whether code runs share no address. -/
def CodeApart (areas : List Area) : Prop :=
  ∀ a ∈ areas, ∀ a' ∈ areas, a.flags.executable = a'.flags.executable ∨ a.stop ≤ a'.start ∨
    a'.stop ≤ a.start

instance (areas : List Area) : Decidable (CodeApart areas) :=
  inferInstanceAs (Decidable (∀ a ∈ areas, ∀ a' ∈ areas, _))

/-- Areas that share an address agree on whether code runs there. -/
def Agree (areas : List Area) : Prop :=
  ∀ a ∈ areas, ∀ a' ∈ areas, ∀ n, a.covers n = true → a'.covers n = true →
    a.flags.executable = a'.flags.executable

theorem CodeApart.agree {areas : List Area} (h : CodeApart areas) : Agree areas := by
  intro a ha a' ha' n hn hn'
  simp only [Area.covers, Bool.and_eq_true, decide_eq_true_eq] at hn hn'
  rcases h a ha a' ha' with hsame | hapart | hapart
  · exact hsame
  · omega
  · omega

theorem shown_leaf {p : PhysAddr} (ha : p.num % 4096 = 0) (hp : p.num < 2 ^ 48)
    (hf : Entry.Complete f) (hexec : region.executable = true → f.executable = true) :
    region.Shown p (Area.leaf p.num f) := by
  have hleaf : Area.leaf p.num f = Entry.toLeaf ⟨p.val &&& Entry.addressMask⟩ f := by
    have hword : UInt64.ofNat p.num = p.val := p.val.ofNat_toNat
    rw [Area.leaf, Nat.div_mul_cancel (Nat.dvd_of_mod_eq_zero ha), hword,
      Entry.and_addressMask ha hp, Entry.toLeaf]
  rw [hleaf]
  refine ⟨Entry.isLeaf_toLeaf hf, ?_, fun h => ?_⟩
  · rw [Entry.addr_toLeaf hf, Entry.and_addressMask ha hp]
  · rw [Entry.flags_toLeaf hf]
    exact hexec h

/-- The areas are complete, and a region that has to run has a flag word that lets it. -/
theorem flags_of_areas : (∀ a ∈ areas c l, Entry.Complete a.flags) ∧
    ∀ regions, Region.all c l = .ok regions → ∀ region ∈ regions,
      region.executable = true → region.area.flags.executable = true := by
  constructor
  · simp only [areas, Area.around, Area.page, List.forall_mem_cons]
    exact ⟨by decide, by decide, by decide, by decide, by decide, by decide, by decide,
      List.forall_mem_nil _⟩
  · intro regions hall
    obtain ⟨v, k, u, -, -, -, rfl⟩ := Region.all_eq_ok hall
    simp only [List.forall_mem_cons]
    have htext : Flags.text.executable = true := by decide
    have hdata : ∀ b : Bool, false = true → b = true := fun _ h => absurd h Bool.false_ne_true
    exact ⟨fun _ => htext, hdata _, hdata _, hdata _, fun _ => htext, fun _ => htext, hdata _,
      List.forall_mem_nil _⟩

/-- Where the areas agree on what runs, both halves show every region. -/
theorem verified_of_laid {m : Memory} (h : Laid m roots (areas c l) (ramArea c :: areas c l))
    (hlow : l.Low c) (hagree : Agree (areas c l)) (hregions : Region.all c l = .ok regions) :
    Verified m roots regions := by
  intro region hmem
  have hroom := hlow.region hregions region hmem
  obtain ⟨r, hr⟩ := hroom.exists_widened
  refine ⟨r, hr, fun i hi => ?_⟩
  obtain ⟨hstart, hstop⟩ := PhysRange.num_widened hr
  have htop := hroom.top
  have hsize : r.size.toNat = r.stop.num - r.start.num := r.size_toNat
  have hnum := PhysRange.num_step hi
  have hin : r.start.num ≤ (r.step i).num ∧ (r.step i).num < r.stop.num := by
    unfold PhysRange.steps at hi
    omega
  have harea : region.area ∈ areas c l := by
    rw [← Region.map_area_all hregions]
    exact List.mem_map_of_mem hmem
  have hcovers : region.area.covers (r.step i).num = true := by
    rw [Region.area, Area.around, ← hstart, ← hstop, Area.covers]
    simpa using hin
  obtain ⟨a, ha, hcovers', hoverlay⟩ := Area.exists_overlay harea hcovers
  -- Areas that share the page agree on whether it runs, so the last one shows it.
  have hshown : region.Shown (r.step i) (Area.overlay (areas c l) (r.step i).num) := by
    rw [hoverlay]
    refine shown_leaf (by omega) (by omega) (flags_of_areas.1 a ha) fun hexec => ?_
    rw [← hagree _ harea a ha _ hcovers hcovers']
    exact flags_of_areas.2 regions hregions region hmem hexec
  have hidentity := VirtAddr.num_identity (p := r.step i) (by omega)
  have halias := VirtAddr.num_highAlias (p := r.step i) (by omega)
  have hlook := h.low (r.step i).identity (VirtAddr.canonical_ofWord _)
  have hlook' := h.high ((r.step i).highAlias highBase) (VirtAddr.canonical_ofWord _)
  constructor
  · rw [hlook, if_pos (by omega), hidentity]
    exact hshown
  · rw [hlook', if_neg (by omega), halias,
      show 2 ^ 64 - 2 ^ 47 + (r.step i).num - (2 ^ 64 - 2 ^ 47) = (r.step i).num by omega,
      Area.overlay_cons_of_covers _ harea hcovers]
    exact hshown

theorem exists_checkRegions (h : Verified s.memory roots regions) :
    ∃ n, (checkRegions roots highBase regions).run s = .ok (.ok n) s := by
  induction regions with
  | nil => exact ⟨0, rfl⟩
  | cons region rest ih =>
    rw [Verified, List.forall_mem_cons] at h
    obtain ⟨⟨r, hr, hshown⟩, hlater⟩ := h
    obtain ⟨n, hrest⟩ := ih hlater
    have hcheck : (liftM region.range.widened : MoveM PhysRange).run s = .ok (.ok r) s := by
      rw [hr]
      rfl
    have hpages : (checkPages roots highBase region r 0 r.steps).run s = .ok (.ok ()) s :=
      checkPages_eq_ok_iff.2 ⟨rfl, fun j _ hj => hshown j (by omega)⟩
    exact ⟨_, (run_bindE_ok hcheck).trans ((run_bindE_ok hpages).trans (run_bindE_ok hrest))⟩

/-- What is wrong with the image's pointers or with the stack pointer, if anything is. -/
def objection (l : ImageLayout) (r : Ram) (w : Window) (sp : Word) : Option Cause :=
  match (relocations l).validate r w l.data with
  | .error e => some (.relocation e)
  | .ok _ => if l.stack.holds sp then none else some (.stackOutside sp)

/-- Once both halves show every region, the checks object to the image's pointers or to the stack
pointer, or they are passed. -/
theorem run_check (hwidth : c.highBase = highBase) (hregions : Region.all c l = .ok regions)
    (hverified : Verified s.memory roots regions) (hfits : ∀ n ∈ s.ledger.records, n.Fits) :
    match objection l s.memory.board.ram s.memory.frames.window
      s.memory.board.cpu.behaviour.stackPointer with
    | some cause => (check c l roots).run s = .ok (.error ⟨.dualMapped, cause⟩) s
    | none => ∃ s', (check c l roots).run s = .ok (.ok ()) s' := by
  obtain ⟨pages, hpages⟩ := exists_checkRegions hverified
  have hrecords : ∀ n ∈ s.ledger.records.toList, n.Sums :=
    fun n hn => (hfits n (Array.mem_toList_iff.1 hn)).sums
  obtain ⟨b₁, hfound⟩ := Ledger.run_conflictsIn hrecords s.memory.board
  have hcheck : (liftM (Region.all c l) : MoveM (List Region)).run s = .ok (.ok regions) s := by
    rw [hregions]
    rfl
  have hsp : (liftM Board.stackPointer : MoveM Word).run s =
      .ok (.ok s.memory.board.cpu.behaviour.stackPointer) s :=
    run_lift (Space.run_board (s := s) (m := s.memory) rfl)
  have hconflicts : (liftM s.ledger.conflicts : MoveM Nat).run s =
      .ok (.ok (Ledger.disputed s.ledger.records.toList)) (s.withMemory ⟨b₁, s.memory.frames⟩) :=
    run_lift (Space.run_board (s := s) (m := s.memory) hfound)
  unfold check objection
  dsimp only
  rw [hwidth, run_bindE_ok hcheck, run_bindE_ok hpages, run_bindE_ok (run_getE s)]
  cases hvalid : (relocations l).validate s.memory.board.ram s.memory.frames.window l.data with
  | error e => rfl
  | ok pointers =>
    dsimp only
    rw [run_bindE_ok hsp]
    cases hstack : l.stack.holds s.memory.board.cpu.behaviour.stackPointer with
    | false => rfl
    | true =>
      rw [if_pos rfl, if_neg (by decide), run_bindE_ok (run_getE s), run_bindE_ok hconflicts]
      by_cases hmany : 0 < Ledger.disputed s.ledger.records.toList
      · rw [if_pos hmany]
        exact ⟨_, rfl⟩
      · rw [if_neg hmany]
        exact ⟨_, rfl⟩

/-! ## The first part of the move -/

/-- What the move relies on besides frames, the image's pointers and the stack: whole pages of
RAM below the alias limit, regions that both halves have room for and that agree on what runs, and
a processor that gives back what it was given. -/
structure Regular (c : MemoryConfig) (l : ImageLayout) (p : Behaviour) : Prop where
  width : c.width = .bits48
  whole : c.memory.Whole
  low : l.Low c
  agree : Agree (areas c l)
  faithful : p.Faithful

/-- Frames that are enough for the roots and for the tables of both halves. -/
def framesFor (c : MemoryConfig) (l : ImageLayout) : Nat :=
  2 + (tablesBelow (ramArea c).pages + tablesOf (areas c l))

/-- The first part of the move runs out of frames, or the checks decide, about memory that differs
in frames and bitmap at most. -/
theorem prepare_cases (hregular : Regular c l s.memory.board.cpu.behaviour)
    (h : s.memory.Sound [] []) (hrecords : s.ledger.records = #[]) :
    (∃ a s', (prepare c l).run s = .ok (.error a) s' ∧ Starved a s'.memory ∧
        s.memory.supply < framesFor c l) ∨
      ∃ m, Within s.memory m ∧
        match objection l m.board.ram m.frames.window
          s.memory.board.cpu.behaviour.stackPointer with
        | some cause => ∃ s', (prepare c l).run s = .ok (.error ⟨.dualMapped, cause⟩) s'
        | none => ∃ roots s', (prepare c l).run s = .ok (.ok roots) s' := by
  have hhigh := MemoryConfig.highBase_of_width hregular.width
  unfold framesFor prepare
  rw [if_neg (not_not_intro hregular.width)]
  rcases buildRoots_spec (c := c) h with
    ⟨s₁, hgiven, hfew, hnone⟩ | ⟨roots, m₁, hbuild, hempty, hwithin, hspent⟩
  · exact Or.inl ⟨_, s₁, run_bindE_fail hgiven, ⟨Or.inl rfl, hnone⟩, by omega⟩
  obtain ⟨es₁, h₁, -⟩ := (emits_buildRoots c).of_ok hbuild
  have hrecords₁ : ∀ n ∈ (s.withMemory m₁).ledger.records, n.Fits := by
    rw [Space.ledger_withMemory, hrecords]
    exact fun n hn => absurd hn (Array.not_mem_empty n)
  rcases needs_mapDual hempty.sound hhigh hregular.low hregular.whole hrecords₁ with
    ⟨a, s₂, hgiven, hstarved, hfew⟩ | ⟨_, s₂, hdual, -, hfits⟩
  · rw [Space.memory_withMemory] at hfew
    exact Or.inl ⟨a, s₂, (run_bindE_ok hbuild).trans (run_bindE_fail hgiven), hstarved, by omega⟩
  obtain ⟨es₂, h₂, -⟩ := (emits_mapDual c l roots).of_ok hdual
  obtain ⟨hgrows, regions, hregions, hlaid⟩ := mapDual_spec hhigh hempty.sound hdual
  have hverified := verified_of_laid
    (hlaid hregular.low hregular.whole.le hregular.whole.top hempty) hregular.low hregular.agree
    hregions
  have hbehaviour : s₂.memory.board.cpu.behaviour = s.memory.board.cpu.behaviour :=
    h₂.behaviour.trans h₁.behaviour
  have hchecked := run_check hhigh hregions hverified hfits
  refine Or.inr ⟨s₂.memory, hwithin.trans hgrows.within, ?_⟩
  rw [← hbehaviour, run_bindE_ok hbuild, run_bindE_ok hdual]
  cases hcause : objection l s₂.memory.board.ram s₂.memory.frames.window
      s₂.memory.board.cpu.behaviour.stackPointer with
  | some cause =>
    rw [hcause] at hchecked
    exact ⟨s₂, run_bindE_fail hchecked⟩
  | none =>
    rw [hcause] at hchecked
    obtain ⟨s₃, hcheck⟩ := hchecked
    obtain ⟨es₃, h₃, -⟩ := (emits_checkAll (P := Builds) c l roots).of_ok hcheck
    have haligned : ∀ root ∈ [roots.high, roots.low], root.aligned = true :=
      fun root hroot => (hgrows.sound.owned root hroot [] root .root).aligned
    have hfaithful : s₃.memory.board.cpu.behaviour.Faithful := by
      rw [show s₃.memory.board.cpu.behaviour = s₂.memory.board.cpu.behaviour from h₃.behaviour,
        hbehaviour]
      exact hregular.faithful
    obtain ⟨s₄, henable⟩ := run_enable (c := c) (l := l) hfaithful
      (haligned roots.low (by simp)) (haligned roots.high (by simp))
    exact ⟨roots, s₄, (run_bindE_ok hcheck).trans ((run_bindE_ok henable).trans rfl)⟩

/-- With frames enough and nothing to object to, the first part of the move is made. -/
theorem exists_prepare (hregular : Regular c l s.memory.board.cpu.behaviour)
    (h : s.memory.Sound [] []) (hsupply : framesFor c l ≤ s.memory.supply)
    (hrecords : s.ledger.records = #[])
    (hpass : ∀ m, Within s.memory m → objection l m.board.ram m.frames.window
      s.memory.board.cpu.behaviour.stackPointer = none) :
    ∃ roots s', (prepare c l).run s = .ok (.ok roots) s' := by
  rcases prepare_cases hregular h hrecords with ⟨a, s', -, -, hfew⟩ | ⟨m, hwithin, hdecided⟩
  · omega
  · rwa [hpass m hwithin] at hdecided

end Transition

end HighHalf
