import HighHalf.Proofs.Frames.Contract
import HighHalf.Proofs.Frames.Plan

/-!
# The move given up

The move can be given up at five points. Whichever it is, all that happened until then was
building: the vectors are set and the table bases are programmed only when nothing can be refused
any more, since the bases are frames. The frame store is left as consistent as it was found, and
it knows all the frames that were used for tables.

## Main definitions

* `Transition.GivenUp`: where the move was given up
* `Sure`: a step that is never refused
-/

namespace HighHalf

open Event Board Memory Tables

variable {ε σ α β δ : Type}

/-! ## Steps that are never refused -/

/-- The step returns an answer or stops for good. -/
structure Sure (x : ExceptT δ (EStateM ε σ) α) : Prop where
  ne_error : ∀ {s d s'}, x.run s ≠ .ok (.error d) s'

section Sure

variable {x : ExceptT δ (EStateM ε σ) α} {f : α → ExceptT δ (EStateM ε σ) β}

theorem sure_pure (a : α) : Sure (pure a : ExceptT δ (EStateM ε σ) α) :=
  ⟨fun hrun => by cases hrun⟩

theorem sure_lift (x : EStateM ε σ α) : Sure (liftM x : ExceptT δ (EStateM ε σ) α) :=
  ⟨run_lift_ne_error⟩

theorem sure_bind (hx : Sure x) (hf : ∀ a, Sure (f a)) : Sure (x >>= f) := by
  refine ⟨fun hrun => ?_⟩
  rcases cases_of_run_bindE hrun with hfirst | ⟨a, s', -, hrest⟩
  · exact hx.ne_error hfirst
  · exact (hf a).ne_error hrest

end Sure

namespace Control

variable {low high : PhysAddr}

theorem sure_setRoots (h : misalignedBase? low high = none) : Sure (setRoots low high) := by
  unfold setRoots
  rw [h]
  refine sure_bind (sure_lift _) fun _ => sure_bind (sure_lift _) fun _ => ?_
  refine sure_bind (sure_lift _) fun _ => sure_bind (sure_lift _) fun _ => sure_lift _

theorem sure_apply (h : misalignedBase? low high = none) (width : VaWidth) (walks : Walks) :
    Sure (apply low high width walks) := by
  unfold apply
  refine sure_bind (sure_lift _) fun _ => sure_bind (sure_lift _) fun _ => ?_
  refine sure_bind (sure_setRoots h) fun _ => ?_
  iterate 7 refine sure_bind (sure_lift _) fun _ => ?_
  exact sure_lift _

end Control

/-- A consistent store stays so, and nobody's frame is touched. -/
def Space.Spends (s s' : Space) : Prop := s.memory.Consistent → s.memory.Spares s'.memory

instance : Std.Refl Space.Spends := ⟨fun _ h => Spares.refl h⟩

instance : IsTrans Space Space.Spends :=
  ⟨fun _ _ _ h h' hs => (h hs).trans (h' (h hs).consistent)⟩

namespace Transition

variable {c : MemoryConfig} {l : ImageLayout} {roots : Roots} {s s' : Space} {a : Abort}
  {p : PhysAddr}

/-- Roots that are aligned are never refused. -/
theorem sure_enable (hlow : roots.low.aligned = true) (hhigh : roots.high.aligned = true) :
    Sure (enable c l roots) := by
  have hbases : Control.misalignedBase? roots.low roots.high = none := by
    rw [Control.misalignedBase?, hlow, hhigh]
    rfl
  refine sure_bind (sure_lift _) fun _ => ⟨fun hrun => ?_⟩
  rcases cases_of_run_bindE hrun with hfail | ⟨r, s₁, happly, hrest⟩
  · exact run_lift_ne_error hfail
  · cases r with
    | ok u => exact run_lift_ne_error hrest
    | error e =>
      obtain ⟨m, hm, -⟩ := Space.exists_of_onMemory (exists_of_lift happly)
      obtain ⟨b, hb, -⟩ := exists_of_onBoard hm
      exact (Control.sure_apply hbases ..).ne_error hb

/-! ## The roots -/

/-- Up to the first mapping, only the frame store changes. -/
theorem admits_spends : Admits Space.Spends [] where
  board := fun hx => ⟨fun hrun hs => by
    obtain ⟨b, hb, rfl⟩ := Space.exists_of_board hrun
    exact (keeps_board (hx.ram_eq (fun s h => h s rfl) hb)).spares hs⟩
  park := fun n => ⟨fun hrun hs => by
    obtain ⟨m, hm, rfl⟩ := Space.exists_of_onMemory hrun
    obtain ⟨k, m', hpark, hspares, -⟩ := park_spec n hs
    cases hm.symm.trans hpark
    exact hspares⟩
  allocateTable := ⟨fun hrun hs => by
    obtain ⟨m, hm, rfl⟩ := Space.exists_of_onMemory hrun
    rcases allocateTable_spec hs with ⟨m', hnone, hkeeps, -⟩ | ⟨p, m', hsome, hspares, -⟩
    · cases hm.symm.trans hnone
      exact hkeeps.spares hs
    · cases hm.symm.trans hsome
      exact hspares⟩
  mapRange := nofun
  ledger := fun _ _ hs => Spares.refl hs
  live := fun _ _ hs => Spares.refl hs

/-- Roots are frames. -/
theorem aligned_of_rootFrame (h : s.memory.Consistent)
    (hrun : rootFrame.run s = .ok (.ok p) s') : p.aligned = true := by
  unfold rootFrame at hrun
  obtain ⟨r, s₁, hframe, hrest⟩ := exists_of_run_bindE hrun
  obtain ⟨m, hm, -⟩ := Space.exists_of_onMemory (exists_of_lift hframe)
  rcases allocateTable_spec h with ⟨m', hnone, -⟩ | ⟨q, m', hsome, -, hgrants⟩
  · cases hm.symm.trans hnone
    cases hrest
  · cases hm.symm.trans hsome
    cases hrest
    exact hgrants.owned.aligned

theorem aligned_of_buildRoots (h : s.memory.Consistent)
    (hrun : (buildRoots c).run s = .ok (.ok roots) s') :
    roots.low.aligned = true ∧ roots.high.aligned = true := by
  obtain ⟨n, s₁, s₂, s₃, s₄, s₅, _, _, hpark, hnote, hlow, hhigh, -⟩ := stages_of_buildRoots hrun
  have h₁ := ((admits_spends.park c.tableReserve).of_ok hpark h).consistent
  have h₂ := ((admits_spends.board (emits_note ..)).of_ok hnote h₁).consistent
  have h₃ := (admits_spends.rootFrame.of_ok hlow h₂).consistent
  exact ⟨aligned_of_rootFrame h₂ hlow, aligned_of_rootFrame h₃ hhigh⟩

/-! ## Where the move is given up -/

/-- Where the move from `s` was given up with `a`. -/
inductive GivenUp (c : MemoryConfig) (l : ImageLayout) (s : Space) (a : Abort) (s' : Space) : Prop
  | width (hwidth : c.width ≠ .bits48) (habort : a = ⟨.start, .unsupportedWidth c.width⟩)
      (hsame : s' = s)
  | roots (hwidth : c.width = .bits48) (hrun : (buildRoots c).run s = .ok (.error a) s')
  | mapping (hwidth : c.width = .bits48) (roots : Roots) (s₁ : Space)
      (hroots : (buildRoots c).run s = .ok (.ok roots) s₁)
      (hrun : (mapDual c l roots).run s₁ = .ok (.error a) s')
  | checks (hwidth : c.width = .bits48) (roots : Roots) (s₁ s₂ : Space)
      (hroots : (buildRoots c).run s = .ok (.ok roots) s₁)
      (hdual : (mapDual c l roots).run s₁ = .ok (.ok ()) s₂)
      (hrun : (check c l roots).run s₂ = .ok (.error a) s')

/-- The last moment at which the move is given up is when something is found by the checks. -/
theorem givenUp_of_run (h : s.memory.Consistent)
    (hrun : (run c l).run s = .ok (.error a) s') : GivenUp c l s a s' := by
  rcases cases_of_run_bindE hrun with hprepare | ⟨roots, s₁, -, hrest⟩
  · unfold prepare at hprepare
    by_cases hwidth : c.width = .bits48
    · rw [if_neg (not_not_intro hwidth)] at hprepare
      rcases cases_of_run_bindE hprepare with hroots | ⟨roots, s₁, hroots, hrest₁⟩
      · exact .roots hwidth hroots
      rcases cases_of_run_bindE hrest₁ with hdual | ⟨_, s₂, hdual, hrest₂⟩
      · exact .mapping hwidth roots s₁ hroots hdual
      rcases cases_of_run_bindE hrest₂ with hcheck | ⟨_, s₃, -, hrest₃⟩
      · exact .checks hwidth roots s₁ s₂ hroots hdual hcheck
      obtain ⟨hlow, hhigh⟩ := aligned_of_buildRoots h hroots
      exact absurd hrest₃ (sure_bind (sure_enable hlow hhigh) fun _ => sure_pure _).ne_error
    · rw [if_pos hwidth] at hprepare
      cases hprepare
      exact .width hwidth rfl rfl
  · exact absurd hrest (sure_bind (sure_lift _) fun _ => sure_pure _).ne_error

/-! ## What is left behind -/

/-- Until then nothing happened but building. -/
theorem GivenUp.built (h : GivenUp c l s a s') : s.memory.board.Only Builds s'.memory.board := by
  have hroots : ∀ {r s₁}, (buildRoots c).run s = .ok r s₁ →
      s.memory.board.Only Builds s₁.memory.board := (emits_buildRoots c).of_ok
  cases h with
  | width hwidth habort hsame =>
    rw [hsame]
    exact Only.refl ..
  | roots hwidth hrun => exact hroots hrun
  | mapping hwidth roots s₁ hmade hrun =>
    exact (hroots hmade).trans ((emits_mapDual c l roots).of_ok hrun)
  | checks hwidth roots s₁ s₂ hmade hdual hrun =>
    have hmapped : s₁.memory.board.Only Builds s₂.memory.board :=
      (emits_mapDual c l roots).of_ok hdual
    exact (hroots hmade).trans (hmapped.trans ((emits_checkAll c l roots).of_ok hrun))

/-- The frame store manages the same frames through the same window. -/
theorem GivenUp.stays (h : GivenUp c l s a s') : s.Stays s' := by
  cases h with
  | width hwidth habort hsame =>
    rw [hsame]
    exact Std.Refl.refl s
  | roots hwidth hrun => exact ((admits_stays []).buildRoots c).of_ok hrun
  | mapping hwidth roots s₁ hroots hrun =>
    exact IsTrans.trans _ _ _ (((admits_stays []).buildRoots c).of_ok hroots)
      (((admits_stays _).mapDual c l).of_ok hrun)
  | checks hwidth roots s₁ s₂ hroots hdual hrun =>
    exact IsTrans.trans _ _ _ (((admits_stays []).buildRoots c).of_ok hroots)
      (IsTrans.trans _ _ _ (((admits_stays _).mapDual c l).of_ok hdual)
        (((admits_stays []).check c l roots).of_ok hrun))

/-- The frame store is consistent, whatever became of the trees. -/
theorem GivenUp.consistent (hs : s.memory.Sound [] []) (h : GivenUp c l s a s') :
    s'.memory.Consistent := by
  have hsound : ∀ {roots : Roots} {s₁ : Space}, (buildRoots c).run s = .ok (.ok roots) s₁ →
      s₁.memory.Sound [roots.high, roots.low] [] := by
    intro roots s₁ hroots
    obtain ⟨m, rfl, hlaid, -⟩ := laid_of_buildRoots hs hroots
    exact hlaid.sound
  cases h with
  | width hwidth habort hsame =>
    rw [hsame]
    exact hs.consistent
  | roots hwidth hrun => exact ((admits_spends.buildRoots c).of_ok hrun hs.consistent).consistent
  | mapping hwidth roots s₁ hroots hrun =>
    exact ((admits_tends.mapDual c l).of_ok hrun (hsound hroots)).sound.consistent
  | checks hwidth roots s₁ s₂ hroots hdual hrun =>
    have hmapped := ((admits_tends.mapDual c l).of_ok hdual (hsound hroots)).sound
    exact ((admits_tends.check c l roots).of_ok hrun hmapped).sound.consistent

end Transition

end HighHalf
