import HighHalf.Proofs.Tables.Overlay
import HighHalf.Proofs.Transition.Building

/-!
# Mapping both halves

The move to the high half makes two roots, maps all of RAM in the high half and then every
region in both halves. If that succeeds the trees are sound, and they hold the overlays of the
regions, in the order in which they were mapped.

## Main definitions

* `Transition.areas`: the areas of the regions, in order
* `PhysRange.Low`: a range that both halves have room for
-/

namespace HighHalf

/-- A range that does not run backwards and ends before the last page with a high alias. -/
structure PhysRange.Low (r : PhysRange) : Prop where
  le : r.start.num ≤ r.stop.num
  top : r.stop.num ≤ 2 ^ 47 - 4096

/-- The whole pages around a region, with its flag word. -/
def Region.area (region : Region) : Area := .around region.range region.flags

namespace Transition

/-- The areas that both halves show, in the order in which they are mapped. -/
def areas (c : MemoryConfig) (l : ImageLayout) : List Area :=
  [.around l.text .text, .around l.rodata .rodata, .around l.data .data, .around l.stack .data,
    .page l.vectors .text, .page l.continuation .text, .page c.uart .device]

/-- All of RAM, with the flag word of data. -/
def ramArea (c : MemoryConfig) : Area := ⟨c.memory.start.num, c.memory.stop.num, .data⟩

end Transition

/-! ## The regions -/

namespace PhysRange

variable {r r' : PhysRange} {p : PhysAddr} {i : Nat}

theorem num_widened (h : r.widened = .ok r') :
    r'.start.num = r.start.num / 4096 * 4096 ∧ r'.stop.num = (r.stop.num + 4095) / 4096 * 4096 := by
  unfold widened at h
  cases hstop : r.stop.ceil with
  | error e =>
    rw [hstop] at h
    cases h
  | ok stop =>
    rw [hstop] at h
    cases h
    exact ⟨r.start.num_floor, PhysAddr.num_ceil hstop⟩

theorem exists_widened (h : r.stop.num ≤ 2 ^ 64 - 4096) :
    ∃ r', r.widened = .ok r' := by
  obtain ⟨stop, hstop⟩ := PhysAddr.exists_ceil (p := r.stop) (by omega)
  refine ⟨⟨r.start.floor, stop⟩, ?_⟩
  rw [widened, hstop]
  rfl

theorem size_eq_zero (h : r.isEmpty = true) : r.size = 0 := by
  simpa [isEmpty] using h

theorem isEmpty_iff : r.isEmpty = true ↔ r.stop.num ≤ r.start.num := by
  have hsize : r.size.toNat = r.stop.num - r.start.num := r.size_toNat
  rw [isEmpty, decide_eq_true_eq, ← UInt64.toNat_inj, hsize, UInt64.toNat_zero]
  exact Nat.sub_eq_zero_iff_le

theorem num_identity_stop (hle : r.start.num ≤ r.stop.num) (htop : r.stop.num < 2 ^ 47) :
    (r.start.identity.add r.size).num = r.stop.num := by
  have hsize : r.size.toNat = r.stop.num - r.start.num := r.size_toNat
  have hstart := VirtAddr.num_identity (p := r.start) (by omega)
  rw [VirtAddr.num_add (by omega), hstart]
  omega

theorem num_highAlias_stop (hle : r.start.num ≤ r.stop.num) (htop : r.stop.num < 2 ^ 47) :
    ((r.start.highAlias highBase).add r.size).num = 2 ^ 64 - 2 ^ 47 + r.stop.num := by
  have hsize : r.size.toNat = r.stop.num - r.start.num := r.size_toNat
  have hstart := VirtAddr.num_highAlias (p := r.start) (by omega)
  rw [VirtAddr.num_add (by omega), hstart]
  omega

theorem num_step (hi : i < r.steps) : (r.step i).num = r.start.num + 4096 * i := by
  have htop := r.stop.num_lt
  have hsize : r.size.toNat = r.stop.num - r.start.num := r.size_toNat
  unfold steps at hi
  exact PhysAddr.num_up (by omega)

theorem num_pageOf (h : pageOf p = .ok r) :
    r.start.num = p.num / 4096 * 4096 ∧ r.stop.num = p.num / 4096 * 4096 + 4096 := by
  rw [pageOf] at h
  cases hstop : p.floor.add pageSize with
  | error e =>
    rw [hstop] at h
    cases h
  | ok stop =>
    rw [hstop] at h
    cases h
    exact ⟨p.num_floor, by rw [PhysAddr.num_add hstop, p.num_floor]; rfl⟩

theorem around_pageOf (h : pageOf p = .ok r) (f : Flags) : Area.around r f = .page p f := by
  obtain ⟨hstart, hstop⟩ := num_pageOf h
  rw [Area.around, Area.page, hstart, hstop, Area.mk.injEq]
  refine ⟨by omega, by omega, rfl⟩

end PhysRange

namespace Region

variable {c : MemoryConfig} {l : ImageLayout} {regions : List Region}

/-- The regions, with the pages of those that are given by one address. -/
theorem all_eq_ok (h : all c l = .ok regions) :
    ∃ v k u, PhysRange.pageOf l.vectors = .ok v ∧ PhysRange.pageOf l.continuation = .ok k ∧
      PhysRange.pageOf c.uart = .ok u ∧
      regions = [⟨"text", l.text, .text, true⟩, ⟨"rodata", l.rodata, .rodata, false⟩,
        ⟨"data", l.data, .data, false⟩, ⟨"stack", l.stack, .data, false⟩,
        ⟨"vectors", v, .text, true⟩, ⟨"continuation", k, .text, true⟩,
        ⟨"uart", u, .device, false⟩] := by
  unfold all at h
  cases hv : PhysRange.pageOf l.vectors with
  | error e => rw [hv] at h; cases h
  | ok v =>
    cases hk : PhysRange.pageOf l.continuation with
    | error e => rw [hv, hk] at h; cases h
    | ok k =>
      cases hu : PhysRange.pageOf c.uart with
      | error e => rw [hv, hk, hu] at h; cases h
      | ok u =>
        rw [hv, hk, hu] at h
        cases h
        exact ⟨v, k, u, rfl, rfl, rfl, rfl⟩

theorem map_area_all (h : all c l = .ok regions) :
    regions.map area = Transition.areas c l := by
  obtain ⟨v, k, u, hv, hk, hu, rfl⟩ := all_eq_ok h
  simp only [List.map_cons, List.map_nil, area, PhysRange.around_pageOf hv,
    PhysRange.around_pageOf hk, PhysRange.around_pageOf hu, Transition.areas]

end Region

/-- What the addresses of a layout have to be for both halves to have room for its regions. -/
structure ImageLayout.Low (c : MemoryConfig) (l : ImageLayout) : Prop where
  text : l.text.Low
  rodata : l.rodata.Low
  data : l.data.Low
  stack : l.stack.Low
  vectors : l.vectors.num < 2 ^ 47 - 4096
  continuation : l.continuation.num < 2 ^ 47 - 4096
  uart : c.uart.num < 2 ^ 47 - 4096

theorem PhysRange.Low.pageOf {p : PhysAddr} {r : PhysRange} (h : PhysRange.pageOf p = .ok r)
    (hp : p.num < 2 ^ 47 - 4096) : r.Low := by
  obtain ⟨hstart, hstop⟩ := PhysRange.num_pageOf h
  exact ⟨by omega, by omega⟩

theorem ImageLayout.Low.region {c : MemoryConfig} {l : ImageLayout} {regions : List Region}
    (h : l.Low c) (hall : Region.all c l = .ok regions) : ∀ region ∈ regions, region.range.Low := by
  obtain ⟨v, k, u, hv, hk, hu, rfl⟩ := Region.all_eq_ok hall
  simp only [List.forall_mem_cons]
  exact ⟨h.text, h.rodata, h.data, h.stack, .pageOf hv h.vectors, .pageOf hk h.continuation,
    .pageOf hu h.uart, nofun⟩

/-! ## One region in one half -/

namespace Transition

open Memory Tables Area

variable {s s' : Space} {roots : Roots} {r : PhysRange} {f : Flags} {low high : List Area}

theorem MapsInto.paintLow
    (hm : MapsInto s s' [roots.high, roots.low] [] roots.low r.start.identity r f)
    (h : Laid s.memory roots low high) (hle : r.start.num ≤ r.stop.num)
    (htop : r.stop.num < 2 ^ 47) :
    Laid s'.memory roots (low ++ [⟨r.start.num, r.stop.num, f⟩]) high := by
  have hstart := VirtAddr.num_identity (p := r.start) (by omega)
  have hstop := PhysRange.num_identity_stop hle htop
  refine h.paintLow hm.grows.sound htop fun q hq v hv => ?_
  rw [hm.leaves q hq v]
  by_cases hroot : q = roots.low
  · rw [if_pos hroot, painted_area 0 r.stop.num (by omega) (by omega)
      (Or.inl rfl) htop hm.proper hv]
    by_cases hin : r.start.num ≤ v.num ∧ v.num < r.stop.num
    · rw [if_pos (by omega), if_pos ⟨hroot, hin⟩, Nat.sub_zero]
    · rw [if_neg (by omega), if_neg fun c => hin c.2]
  · rw [if_neg hroot, if_neg fun c => hroot c.1]

theorem MapsInto.paintHigh
    (hm : MapsInto s s' [roots.high, roots.low] [] roots.high (r.start.highAlias highBase) r f)
    (h : Laid s.memory roots low high) (hle : r.start.num ≤ r.stop.num)
    (htop : r.stop.num < 2 ^ 47) :
    Laid s'.memory roots low (high ++ [⟨r.start.num, r.stop.num, f⟩]) := by
  have hstart := VirtAddr.num_highAlias (p := r.start) (by omega)
  have hstop := PhysRange.num_highAlias_stop hle htop
  refine h.paintHigh hm.grows.sound hle fun q hq v hv => ?_
  rw [hm.leaves q hq v]
  by_cases hroot : q = roots.high
  · rw [if_pos hroot, painted_area (2 ^ 64 - 2 ^ 47) r.stop.num (by omega)
      (by omega) (Or.inr rfl) htop hm.proper hv]
    by_cases hin : 2 ^ 64 - 2 ^ 47 + r.start.num ≤ v.num ∧ v.num < 2 ^ 64 - 2 ^ 47 + r.stop.num
    · rw [if_pos hin, if_pos ⟨hroot, hin⟩]
    · rw [if_neg hin, if_neg fun c => hin c.2]
  · rw [if_neg hroot, if_neg fun c => hroot c.1]

/-! ## The roots -/

/-- An allowed step to another phase. -/
theorem run_stepTo {p q : Phase} (h : p.allows q = true) (b : Board) :
    ∃ b', stepTo p q b = .ok q b' ∧ Board.Happens b b' [] := by
  have hstep : p.advance q = .ok q := by rw [Phase.advance, if_pos h]
  rw [stepTo, hstep]
  exact ⟨_, rfl, (List.append_nil _).symm, rfl, rfl, rfl⟩

theorem run_advance {p q : Phase} (h : p.allows q = true) (b : Board) :
    ∃ b', advance p q b = .ok () b' ∧ Board.Happens b b' [] := by
  obtain ⟨b₁, hrun, h₁⟩ := run_stepTo h b
  rw [advance, run_bind_ok hrun]
  exact ⟨_, rfl, h₁.trace, h₁.ram, h₁.registers, h₁.behaviour⟩

theorem run_rootFrame {rs : List PhysAddr} {m : Memory} (h : m.Sound rs []) (s : Space) :
    (∃ s', rootFrame.run (s.withMemory m) = .ok (.error ⟨.start, .noRootFrame⟩) s' ∧
        m.supply = 0 ∧ s'.memory.supply = 0) ∨
      ∃ p m', rootFrame.run (s.withMemory m) = .ok (.ok p) (s.withMemory m') ∧
        m'.Sound (p :: rs) [] ∧ Grows m m' rs [] ∧ SameLeaves m m' rs ∧ p ∉ rs ∧
        (∀ v, m'.lookup p v = .empty) ∧ m'.supply + 1 = m.supply := by
  rcases newRoot_spec h with ⟨m', hrun, -, -, hsupply⟩ | ⟨p, m', hrun, hrest⟩
  · exact Or.inl ⟨_, run_bindE_ok (run_lift (Space.run_onMemory hrun)), hsupply,
      supply_of_none h.consistent hrun⟩
  · exact Or.inr ⟨p, m', run_bindE_ok (run_lift (Space.run_onMemory hrun)), hrest⟩

/-- A step of the board that leaves RAM alone is nothing to the trees. -/
theorem run_still {α : Type} {m : Memory} {rs : List PhysAddr} {x : BoardM α} {a : α} {b : Board}
    (h : m.Sound rs []) (hx : x m.board = .ok a b) (hram : b.ram = m.board.ram) (s : Space) :
    ∃ m', (liftM x : MoveM α).run (s.withMemory m) = .ok (.ok a) (s.withMemory m') ∧
      Grows m m' rs [] ∧ SameLeaves m m' rs ∧ m'.supply = m.supply := by
  have hkeeps := Memory.keeps_board hram
  obtain ⟨hgrows, hsame⟩ := grows_spares h (hkeeps.spares h.consistent)
  exact ⟨_, run_lift (Space.run_board hx), hgrows, hsame, hkeeps.supply⟩

/-- The roots are made unless a frame is missing. -/
theorem buildRoots_spec (h : s.memory.Sound [] []) :
    (∃ s', (buildRoots c).run s = .ok (.error ⟨.start, .noRootFrame⟩) s' ∧ s.memory.supply < 2 ∧
        s'.memory.supply = 0) ∨
      ∃ roots m, (buildRoots c).run s = .ok (.ok roots) (s.withMemory m) ∧ Laid m roots [] [] ∧
        Within s.memory m ∧ m.supply + 2 = s.memory.supply := by
  obtain ⟨k, m₁, hpark, hspares, hsupply₁⟩ := park_spec c.tableReserve h.consistent
  obtain ⟨hgrows₁, -⟩ := grows_spares h hspares
  have hrun₁ := run_lift (δ := Abort) (Space.run_onMemory (s := s) hpark)
  obtain ⟨m₂, hrun₂, hgrows₂, -, hsupply₂⟩ := run_still hgrows₁.sound (a := ())
    (x := Board.note .debug .transition s!"{k} frames parked for tables") rfl rfl s
  rcases run_rootFrame hgrows₂.sound s with
    ⟨s₃, hrun₃, hnone⟩ | ⟨low, m₃, hrun₃, hsound₃, hgrows₃, -, -, hempty₃, hsupply₃⟩
  · refine Or.inl ⟨s₃, ?_, by omega, hnone.2⟩
    exact (run_bindE_ok hrun₁).trans ((run_bindE_ok hrun₂).trans (run_bindE_fail hrun₃))
  rcases run_rootFrame hsound₃ s with
    ⟨s₄, hrun₄, hnone⟩ | ⟨high, m₄, hrun₄, hsound₄, hgrows₄, hsame₄, hne, hempty₄, hsupply₄⟩
  · refine Or.inl ⟨s₄, ?_, by omega, hnone.2⟩
    exact (run_bindE_ok hrun₁).trans ((run_bindE_ok hrun₂).trans ((run_bindE_ok hrun₃).trans
      (run_bindE_fail hrun₄)))
  obtain ⟨b₅, hadvance, hstill⟩ := run_advance (p := .start) (q := .tablesBuilt) rfl m₄.board
  obtain ⟨m₅, hrun₅, hgrows₅, hsame₅, hsupply₅⟩ := run_still hsound₄ hadvance hstill.ram s
  obtain ⟨m₆, hrun₆, hgrows₆, hsame₆, hsupply₆⟩ := run_still hgrows₅.sound (a := ())
    (x := Board.note .info .transition s!"roots: TTBR0 {low} TTBR1 {high}") rfl rfl s
  -- The last two steps only log.
  have hlast := hgrows₅.trans hgrows₆
  have hleaves := hsame₅.trans hsame₆
  refine Or.inr ⟨⟨low, high⟩, m₆, ?_, laid_nil hlast.sound ?_ ?_ ?_, ?_, by omega⟩
  · exact (run_bindE_ok hrun₁).trans ((run_bindE_ok hrun₂).trans ((run_bindE_ok hrun₃).trans
      ((run_bindE_ok hrun₄).trans ((run_bindE_ok hrun₅).trans (run_bindE_ok hrun₆)))))
  · exact fun heq => hne (List.mem_singleton.2 heq.symm)
  · intro v
    exact (hleaves low (by simp) v).trans ((hsame₄ low (by simp) v).trans (hempty₃ v))
  · intro v
    exact (hleaves high (by simp) v).trans (hempty₄ v)
  · exact (((hspares.within.trans hgrows₂.within).trans hgrows₃.within).trans
      hgrows₄.within).trans hlast.within

/-- Roots that were made were drawn one after the other, once frames had been parked. -/
theorem stages_of_buildRoots (hrun : (buildRoots c).run s = .ok (.ok roots) s') :
    ∃ n s₁ s₂ s₃ s₄ s₅ text text',
      (liftM (Memory.park c.tableReserve) : SpaceM Nat) s = .ok n s₁ ∧
      (liftM (Board.note .debug .transition text) : SpaceM Unit) s₁ = .ok () s₂ ∧
      rootFrame.run s₂ = .ok (.ok roots.low) s₃ ∧ rootFrame.run s₃ = .ok (.ok roots.high) s₄ ∧
      (liftM (advance .start .tablesBuilt) : SpaceM Unit) s₄ = .ok () s₅ ∧
      (liftM (Board.note .info .transition text') : SpaceM Unit) s₅ = .ok () s' := by
  unfold buildRoots at hrun
  obtain ⟨n, s₁, hpark, hrest₁⟩ := exists_of_run_bindE hrun
  obtain ⟨_, s₂, hnote, hrest₂⟩ := exists_of_run_bindE hrest₁
  obtain ⟨low, s₃, hlow, hrest₃⟩ := exists_of_run_bindE hrest₂
  obtain ⟨high, s₄, hhigh, hrest₄⟩ := exists_of_run_bindE hrest₃
  obtain ⟨_, s₅, hadvance, hrest₅⟩ := exists_of_run_bindE hrest₄
  obtain ⟨_, s₆, hlog, hdone⟩ := exists_of_run_bindE hrest₅
  cases hdone
  exact ⟨n, s₁, s₂, s₃, s₄, s₅, _, _, exists_of_lift hpark, exists_of_lift hnote, hlow, hhigh,
    exists_of_lift hadvance, exists_of_lift hlog⟩

/-- Roots that were made head two empty trees. -/
theorem laid_of_buildRoots (h : s.memory.Sound [] [])
    (hrun : (buildRoots c).run s = .ok (.ok roots) s') :
    ∃ m, s' = s.withMemory m ∧ Laid m roots [] [] ∧ Within s.memory m := by
  rcases buildRoots_spec (c := c) h with ⟨s₁, hgiven, -⟩ | ⟨roots', m, hmade, hlaid, hwithin, -⟩
  · cases hrun.symm.trans hgiven
  · cases hrun.symm.trans hmade
    exact ⟨m, rfl, hlaid, hwithin⟩

/-! ## All regions in both halves -/

variable {region : Region} {regions : List Region} {c : MemoryConfig} {l : ImageLayout}

/-- A check of the move that is passed. -/
theorem exists_of_checkE {α : Type} {x : Except Fatal α} {a : α}
    (h : (liftM x : MoveM α).run s = .ok (.ok a) s') : x = .ok a ∧ s' = s :=
  Space.exists_of_check (exists_of_lift (x := (liftM x : SpaceM α)) h)

/-- A region that was mapped was mapped at its low alias and then at its high one, unless no byte
is in it. -/
theorem stages_of_mapTwice {high : Word}
    (hrun : (mapTwice roots high region).run s = .ok (.ok ()) s') :
    ∃ w, region.range.widened = .ok w ∧ (w.isEmpty = true ∧ s' = s ∨
      ¬ w.isEmpty = true ∧ ∃ s₁,
        (mapInto roots.low region.name w.start.identity w region.flags).run s = .ok (.ok ()) s₁ ∧
        (mapInto roots.high region.name (w.start.highAlias high) w region.flags).run s₁ =
          .ok (.ok ()) s') := by
  unfold mapTwice at hrun
  obtain ⟨w, s₁, hcheck, hrest⟩ := exists_of_run_bindE hrun
  obtain ⟨hw, rfl⟩ := exists_of_checkE hcheck
  refine ⟨w, hw, ?_⟩
  by_cases hempty : w.isEmpty = true
  · rw [if_pos hempty] at hrest
    cases hrest
    exact Or.inl ⟨hempty, rfl⟩
  · rw [if_neg hempty] at hrest
    obtain ⟨_, s₂, hlow, hhigh⟩ := exists_of_run_bindE hrest
    exact Or.inr ⟨hempty, s₂, hlow, hhigh⟩

/-- A region is mapped in both halves. -/
theorem mapTwice_spec (h : s.memory.Sound [roots.high, roots.low] [])
    (hrun : (mapTwice roots highBase region).run s = .ok (.ok ()) s') :
    Grows s.memory s'.memory [roots.high, roots.low] [] ∧
      (region.range.Low → ∀ low high, Laid s.memory roots low high →
        Laid s'.memory roots (low ++ [region.area]) (high ++ [region.area])) := by
  obtain ⟨r, hr, hstages⟩ := stages_of_mapTwice hrun
  obtain ⟨hstart, hstop⟩ := PhysRange.num_widened hr
  have harea : region.area = ⟨r.start.num, r.stop.num, region.flags⟩ := by
    rw [Region.area, Area.around, hstart, hstop]
  rcases hstages with ⟨hempty, rfl⟩ | ⟨-, s₁, hlow, hhigh⟩
  · have hle := PhysRange.isEmpty_iff.1 hempty
    refine ⟨Grows.refl h, fun _ low high hlaid => ⟨h, hlaid.ne, ?_, ?_⟩⟩
    · intro v hv
      rw [harea, overlay_append_of_le low hle, hlaid.low v hv]
    · intro v hv
      rw [harea, overlay_append_of_le high hle, hlaid.high v hv]
  · have hmap₁ := mapsInto_of_run h (by simp) hlow
    have hmap₂ := mapsInto_of_run hmap₁.grows.sound (by simp) hhigh
    refine ⟨hmap₁.grows.trans hmap₂.grows, fun hroom low high hlaid => ?_⟩
    have hle := hroom.le
    have htop := hroom.top
    rw [harea]
    exact hmap₂.paintHigh (hmap₁.paintLow hlaid (by omega) (by omega)) (by omega) (by omega)

/-- The regions are mapped one after the other. -/
theorem mapAllTwice_spec (h : s.memory.Sound [roots.high, roots.low] [])
    (hrun : (mapAllTwice roots highBase regions).run s = .ok (.ok ()) s') :
    Grows s.memory s'.memory [roots.high, roots.low] [] ∧
      ((∀ region ∈ regions, region.range.Low) → ∀ low high, Laid s.memory roots low high →
        Laid s'.memory roots (low ++ regions.map Region.area)
          (high ++ regions.map Region.area)) := by
  induction regions generalizing s with
  | nil =>
    cases hrun
    refine ⟨Grows.refl h, fun _ low high hlaid => ?_⟩
    rwa [List.map_nil, List.append_nil, List.append_nil]
  | cons region rest ih =>
    unfold mapAllTwice at hrun
    obtain ⟨_, s₁, hfirst, hrest⟩ := exists_of_run_bindE hrun
    obtain ⟨hgrows₁, hlaid₁⟩ := mapTwice_spec h hfirst
    obtain ⟨hgrows₂, hlaid₂⟩ := ih hgrows₁.sound hrest
    refine ⟨hgrows₁.trans hgrows₂, fun hroom low high hlaid => ?_⟩
    rw [List.forall_mem_cons] at hroom
    have hall := hlaid₂ hroom.2 _ _ (hlaid₁ hroom.1 low high hlaid)
    rwa [List.append_assoc, List.append_assoc, List.singleton_append, ← List.map_cons] at hall

/-- Stepping to a later phase is nothing but a line of the log. -/
theorem exists_of_advance {p q : Phase} {s s' : Space} {u : Unit}
    (h : (liftM (advance p q) : SpaceM Unit) s = .ok u s') :
    ∃ b, s' = s.withMemory { s.memory with board := b } ∧ b.ram = s.memory.board.ram := by
  obtain ⟨b, hb, rfl⟩ := Space.exists_of_board h
  exact ⟨b, rfl, (emits_advance p q).ram_eq (P := fun _ => False) (fun _ => id) hb⟩

/-- Where both halves were mapped, RAM came first, and then the regions. -/
theorem stages_of_mapDual (hrun : (mapDual c l roots).run s = .ok (.ok ()) s') :
    ∃ regions s₁ s₂ b, Region.all c l = .ok regions ∧
      (mapInto roots.high "ram-linear" (c.memory.start.highAlias c.highBase) c.memory .data).run s =
        .ok (.ok ()) s₁ ∧
      (mapAllTwice roots c.highBase regions).run s₁ = .ok (.ok ()) s₂ ∧
      s' = { s₂ with live := .dual }.withMemory { s₂.memory with board := b } ∧
      b.ram = s₂.memory.board.ram := by
  unfold mapDual at hrun
  obtain ⟨_, s₁, hram, hrest₁⟩ := exists_of_run_bindE hrun
  obtain ⟨regions, s₂, hcheck, hrest₂⟩ := exists_of_run_bindE hrest₁
  obtain ⟨hregions, rfl⟩ := exists_of_checkE hcheck
  obtain ⟨_, s₃, hall, hrest₃⟩ := exists_of_run_bindE hrest₂
  obtain ⟨_, s₄, hlive, hadvance⟩ := exists_of_run_bindE hrest₃
  cases hlive
  obtain ⟨b, rfl, hb⟩ := exists_of_advance (exists_of_lift hadvance)
  exact ⟨regions, s₂, s₃, b, hregions, hram, hall, rfl, hb⟩

/-- After both halves have been mapped: RAM first, then the regions. -/
theorem mapDual_spec (hwidth : c.highBase = highBase)
    (h : s.memory.Sound [roots.high, roots.low] [])
    (hrun : (mapDual c l roots).run s = .ok (.ok ()) s') :
    Grows s.memory s'.memory [roots.high, roots.low] [] ∧
      ∃ regions, Region.all c l = .ok regions ∧
        (l.Low c → c.memory.start.num ≤ c.memory.stop.num → c.memory.stop.num < 2 ^ 47 →
          Laid s.memory roots [] [] →
          Laid s'.memory roots (areas c l) (ramArea c :: areas c l)) := by
  obtain ⟨regions, s₁, s₂, b, hregions, hram, hall, rfl, hb⟩ := stages_of_mapDual hrun
  rw [hwidth] at hram hall
  -- RAM is painted first, so that it lies below the regions.
  have hmap := mapsInto_of_run h (by simp) hram
  obtain ⟨hgrows, hlaid⟩ := mapAllTwice_spec hmap.grows.sound hall
  obtain ⟨hgrows', hsame⟩ :=
    grows_spares hgrows.sound ((Memory.keeps_board hb).spares hgrows.sound.consistent)
  refine ⟨(hmap.grows.trans hgrows).trans hgrows', regions, hregions, ?_⟩
  intro hlow hle htop hstart
  have hdone := hlaid (hlow.region hregions) [] [ramArea c] (hmap.paintHigh hstart hle htop)
  rw [Region.map_area_all hregions] at hdone
  exact hdone.same hgrows'.sound hsame

end Transition

end HighHalf
