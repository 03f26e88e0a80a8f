import HighHalf.Proofs.Transition.Switch

/-!
# Everything before the switch

Up to the moment the vectors are set, the move to the high half has stored tables and looked at
them. If it has not been given up by then, the managed range is one of whole pages, the trees
are sound, all checks have been passed, and both halves show the areas of the layout.

## Main definitions

* `Transition.Prepared`: what is known when the switch begins
-/

namespace HighHalf

open Event Board

theorem MemoryConfig.highBase_of_width {c : MemoryConfig} (h : c.width = .bits48) :
    c.highBase = HighHalf.highBase := by
  rw [highBase, h]
  rfl

namespace Transition

open Memory Tables

variable {c : MemoryConfig} {l : ImageLayout} {roots : Roots} {s s' : Space} {m : Memory}
  {b : Board}

/-- The managed range is one of whole pages if it was mapped in the high half. -/
theorem aligned_of_mapDual (hrun : (mapDual c l roots).run s = .ok (.ok ()) s')
    (hle : c.memory.start.num ≤ c.memory.stop.num) :
    c.memory.start.num % 4096 = 0 ∧ c.memory.stop.num % 4096 = 0 := by
  obtain ⟨regions, s₁, s₂, b, -, hram, -⟩ := stages_of_mapDual hrun
  have hproper := proper_of_run hram
  have hstart := hproper.start_aligned
  have hstop := hproper.stop_aligned
  have hframe := hproper.frame_aligned
  have hsize : c.memory.size.toNat = c.memory.stop.num - c.memory.start.num :=
    c.memory.size_toNat
  have hmod := (c.memory.start.highAlias c.highBase).num_add_mod c.memory.size.toNat
  rw [UInt64.ofNat_toNat] at hmod
  exact ⟨hframe, by omega⟩

/-- The stages of a first part that was completed. -/
theorem stages_of_prepare (hrun : (prepare c l).run s = .ok (.ok roots) s') :
    c.width = .bits48 ∧ ∃ s₁ s₂ s₃, (buildRoots c).run s = .ok (.ok roots) s₁ ∧
      (mapDual c l roots).run s₁ = .ok (.ok ()) s₂ ∧ (check c l roots).run s₂ = .ok (.ok ()) s₃ ∧
      (enable c l roots).run s₃ = .ok (.ok ()) s' := by
  unfold prepare at hrun
  by_cases hwidth : c.width = .bits48
  · rw [if_neg (not_not_intro hwidth)] at hrun
    obtain ⟨roots', s₁, hbuild, hrest₁⟩ := exists_of_run_bindE hrun
    obtain ⟨_, s₂, hdual, hrest₂⟩ := exists_of_run_bindE hrest₁
    obtain ⟨_, s₃, hcheck, hrest₃⟩ := exists_of_run_bindE hrest₂
    obtain ⟨_, s₄, henable, hdone⟩ := exists_of_run_bindE hrest₃
    cases hdone
    exact ⟨hwidth, s₁, s₂, s₃, hbuild, hdual, hcheck, henable⟩
  · rw [if_pos hwidth] at hrun
    cases hrun

theorem aligned_of_prepare (hrun : (prepare c l).run s = .ok (.ok roots) s')
    (hle : c.memory.start.num ≤ c.memory.stop.num) :
    c.memory.start.num % 4096 = 0 ∧ c.memory.stop.num % 4096 = 0 := by
  obtain ⟨-, s₁, s₂, s₃, -, hdual, -⟩ := stages_of_prepare hrun
  exact aligned_of_mapDual hdual hle

theorem Checks.board (h : Checks c l roots m) (hram : b.ram = m.board.ram)
    (hbehaviour : b.cpu.behaviour = m.board.cpu.behaviour) :
    Checks c l roots { m with board := b } where
  verified := by
    obtain ⟨regions, hregions, hverified⟩ := h.verified
    refine ⟨regions, hregions, fun region hmem => ?_⟩
    obtain ⟨r, hr, hshown⟩ := hverified region hmem
    refine ⟨r, hr, fun i hi => ?_⟩
    have hi' := hshown i hi
    simp only [ShownAt, Memory.lookup] at hi' ⊢
    rwa [hram]
  relocations := by
    rw [hram]
    exact h.relocations
  stack := by
    rw [hbehaviour]
    exact h.stack

/-- What is known when the switch begins, about the memory that is left. -/
structure Prepared (c : MemoryConfig) (l : ImageLayout) (roots : Roots) (m m' : Memory) : Prop where
  width : c.width = .bits48
  plan : Frames.SamePlan m.frames m'.frames
  bank : Ram.SameBank m.board.ram m'.board.ram
  sound : m'.Sound [roots.high, roots.low] []
  checks : Checks c l roots m'
  laid : l.Low c → c.memory.stop.num < 2 ^ 47 →
    Laid m' roots (areas c l) (ramArea c :: areas c l)
  built : ∃ es, Happens m.board m'.board es ∧ ∀ e ∈ es, Builds e

/-- The first part of the move, up to the switch. -/
theorem exists_of_prepare (h : s.memory.Sound [] []) (hle : c.memory.start.num ≤ c.memory.stop.num)
    (hrun : (prepare c l).run s = .ok (.ok roots) s') :
    ∃ s₁, Prepared c l roots s.memory s₁.memory ∧ (enable c l roots).run s₁ = .ok (.ok ()) s' := by
  obtain ⟨hwidth, s₁, s₂, s₃, hbuild, hdual, hcheck, henable⟩ := stages_of_prepare hrun
  have hhigh := MemoryConfig.highBase_of_width hwidth
  obtain ⟨es₁, hes₁, hbuilds₁⟩ := (emits_buildRoots c).of_ok hbuild
  obtain ⟨es₂, hes₂, hbuilds₂⟩ := (emits_mapDual c l roots).of_ok hdual
  obtain ⟨es₃, hes₃, hbuilds₃⟩ := (emits_checkAll (P := Builds) c l roots).of_ok hcheck
  have hbuilt := (hes₁.trans hes₂).trans hes₃
  obtain ⟨m₁, rfl, hempty, hwithin⟩ := laid_of_buildRoots h hbuild
  obtain ⟨hgrows, regions, -, hlaid⟩ := mapDual_spec hhigh hempty.sound hdual
  obtain ⟨hchecks, b, hs₃, hram⟩ := checks_of_run hhigh hcheck
  obtain ⟨hkept, hsame⟩ :=
    grows_spares hgrows.sound ((keeps_board hram).spares hgrows.sound.consistent)
  refine ⟨s₃, ?_, henable⟩
  rw [hs₃] at hes₃ hbuilt ⊢
  have hall := hgrows.trans hkept
  constructor
  case width => exact hwidth
  case plan => exact hwithin.plan.trans hall.plan
  case bank => exact hwithin.bank.trans hall.bank
  case sound => exact hall.sound
  case checks => exact hchecks.board hram hes₃.behaviour
  case laid => exact fun hlow htop => (hlaid hlow hle htop hempty).same hkept.sound hsame
  case built =>
    refine ⟨_, hbuilt, ?_⟩
    simp only [List.forall_mem_append]
    exact ⟨⟨hbuilds₁, hbuilds₂⟩, hbuilds₃⟩

/-- The two roots are two tables. -/
theorem ne_of_prepare (h : s.memory.Sound [] [])
    (hrun : (prepare c l).run s = .ok (.ok roots) s') : roots.low ≠ roots.high := by
  obtain ⟨-, s₁, s₂, s₃, hbuild, -⟩ := stages_of_prepare hrun
  obtain ⟨m, -, hempty, -⟩ := laid_of_buildRoots h hbuild
  exact hempty.ne

end Transition

end HighHalf
