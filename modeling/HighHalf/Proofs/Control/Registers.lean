import HighHalf.Proofs.Transition.Prepared

/-!
# What the switch writes to the registers

Only the functions that program the control registers write a register. Each of them is described
by what it makes of all registers on a processor whose reads give what was stored, and the whole
switch is put together from those.

## Main definitions

* `Event.Unwritten`: the event writes no register
* `Programs`: what a step that returns makes of the registers
* `Transition.Programmed`: the registers once the low half is not walked any more
-/

namespace HighHalf

open Event Board

variable {ε σ α β δ : Type}

namespace Event

/-- The event writes no register. -/
def Unwritten (e : Event) : Prop := ∀ r v, e ≠ .write r v

theorem Builds.unwritten {e : Event} (h : e.Builds) : e.Unwritten := by
  rintro r v rfl
  exact h

theorem Quiet.unwritten {e : Event} (h : e.Quiet) : e.Unwritten := by
  rintro r v rfl
  exact h

end Event

/-- A step that writes no register leaves all of them alone. -/
theorem Emits.registers_eq [OnBoard σ] {x : EStateM ε σ α} {s s' : σ} {a : α}
    (h : Emits Unwritten x) (hrun : x s = .ok a s') :
    (OnBoard.board s').cpu.registers = (OnBoard.board s).cpu.registers ∧
      (OnBoard.board s').cpu.behaviour = (OnBoard.board s).cpu.behaviour := by
  obtain ⟨es, hes, hall⟩ := h.of_ok hrun
  refine ⟨hes.registers.trans (registers_of_unwritten fun r v hv => ?_), hes.behaviour⟩
  exact hall _ hv r v rfl

/-! ## Steps and the registers -/

/-- Where reads give what was stored, the step makes `g` of the registers if it returns a value
that is `good`. -/
structure Programs [OnBoard σ] (good : α → Prop) (g : PerRegister Word → PerRegister Word)
    (x : EStateM ε σ α) : Prop where
  run : ∀ s a s', (OnBoard.board s).cpu.behaviour.Faithful → x s = .ok a s' → good a →
    (OnBoard.board s').cpu.registers = g (OnBoard.board s).cpu.registers ∧
      (OnBoard.board s').cpu.behaviour = (OnBoard.board s).cpu.behaviour

/-- Any value. -/
def Any (_ : α) : Prop := True

/-- A value, and no refusal. -/
def Granted : Except δ α → Prop
  | .ok _ => True
  | .error _ => False

section Programs

variable [OnBoard σ] {g g' : PerRegister Word → PerRegister Word} {good : β → Prop}

theorem programs_of_emits {good : α → Prop} {x : EStateM ε σ α} (h : Emits Unwritten x) :
    Programs good id x :=
  ⟨fun _ _ _ _ hrun _ => h.registers_eq hrun⟩

theorem programs_bind {x : EStateM ε σ α} {f : α → EStateM ε σ β} (hx : Programs Any g x)
    (hf : ∀ a, Programs good g' (f a)) : Programs good (g' ∘ g) (x >>= f) := by
  refine ⟨fun s b s'' hfaithful hrun hgood => ?_⟩
  obtain ⟨a, s', hxs, hfs⟩ := exists_of_run_bind hrun
  obtain ⟨hregisters, hbehaviour⟩ := hx.run s a s' hfaithful hxs trivial
  obtain ⟨hregisters', hbehaviour'⟩ := (hf a).run s' b s'' (by rwa [hbehaviour]) hfs hgood
  rw [hregisters', hregisters, hbehaviour', hbehaviour]
  exact ⟨rfl, rfl⟩

/-- Before a step that programs the registers they may be left alone. -/
theorem programs_after {x : EStateM ε σ α} {f : α → EStateM ε σ β} (hx : Programs Any id x)
    (hf : ∀ a, Programs good g (f a)) : Programs good g (x >>= f) :=
  programs_bind hx hf

/-- After a step that programs the registers they may be left alone. -/
theorem programs_before {x : EStateM ε σ α} {f : α → EStateM ε σ β} (hx : Programs Any g x)
    (hf : ∀ a, Programs good id (f a)) : Programs good g (x >>= f) := by
  have h := programs_bind hx hf
  exact h

theorem programs_bindE {x : ExceptT δ (EStateM ε σ) α} {f : α → ExceptT δ (EStateM ε σ) β}
    (hx : Programs Granted g x.run) (hf : ∀ a, Programs Granted g' (f a).run) :
    Programs Granted (g' ∘ g) (x >>= f).run := by
  refine ⟨fun s r s'' hfaithful hrun hgood => ?_⟩
  cases r with
  | error e => exact absurd hgood id
  | ok b =>
    obtain ⟨a, s', hxs, hfs⟩ := exists_of_run_bindE hrun
    obtain ⟨hregisters, hbehaviour⟩ := hx.run s _ s' hfaithful hxs trivial
    obtain ⟨hregisters', hbehaviour'⟩ := (hf a).run s' _ s'' (by rwa [hbehaviour]) hfs trivial
    rw [hregisters', hregisters, hbehaviour', hbehaviour]
    exact ⟨rfl, rfl⟩

theorem programs_lift {x : EStateM ε σ α} (h : Programs Any g x) :
    Programs Granted g (liftM x : ExceptT δ (EStateM ε σ) α).run := by
  refine ⟨fun s r s' hfaithful hrun hgood => ?_⟩
  cases r with
  | error e => exact absurd hgood id
  | ok a => exact h.run s a s' hfaithful (exists_of_lift hrun) trivial

end Programs

/-- A step of the board as a step of the address space. -/
theorem programs_onMemory {good : α → Prop} {g : PerRegister Word → PerRegister Word}
    {x : EStateM ε Memory α} (h : Programs good g x) : Programs good g (Space.onMemory x) := by
  refine ⟨fun s a s' hfaithful hrun hgood => ?_⟩
  obtain ⟨m, hm, rfl⟩ := Space.exists_of_onMemory hrun
  exact h.run s.memory a m hfaithful hm hgood

theorem programs_onBoard {good : α → Prop} {g : PerRegister Word → PerRegister Word}
    {x : BoardM α} (h : Programs good g x) : Programs good g (Memory.onBoard x) := by
  refine ⟨fun m a m' hfaithful hrun hgood => ?_⟩
  obtain ⟨b, hb, rfl⟩ := Memory.exists_of_onBoard hrun
  exact h.run m.board a b hfaithful hb hgood

theorem programs_board {g : PerRegister Word → PerRegister Word} {x : BoardM α}
    (h : Programs Any g x) : Programs Any g (liftM x : SpaceM α) :=
  programs_onMemory (programs_onBoard h)

/-- What the events of a step make of the registers. -/
theorem programs_of_happens {good : α → Prop} {g : PerRegister Word → PerRegister Word}
    {x : BoardM α} (h : ∀ b a b', b.cpu.behaviour.Faithful → x b = .ok a b' → good a →
      ∃ es, Happens b b' es ∧ Event.registers b.cpu.registers es = g b.cpu.registers) :
    Programs good g x := by
  refine ⟨fun b a b' hfaithful hrun hgood => ?_⟩
  obtain ⟨es, hes, hregisters⟩ := h b a b' hfaithful hrun hgood
  exact ⟨hes.registers.trans hregisters, hes.behaviour⟩

theorem programs_quiet {good : α → Prop} {x : BoardM α} (h : Emits Quiet x) :
    Programs good id x :=
  programs_of_emits (h.mono fun _ => Quiet.unwritten)

/-! ## The control registers -/

namespace Control

theorem programs_writeVerified (r : Register) (v : Word) :
    Programs Any (·.set r v) (writeVerified r v) := by
  refine programs_of_happens fun b a b' _ hrun _ => ?_
  obtain ⟨q, hquiet, h⟩ := exists_of_writeVerified hrun
  exact ⟨_, h, registers_of_quiet hquiet⟩

theorem programs_programWalks (width : VaWidth) (walks : Walks) :
    Programs Any (·.set .tcr (walkControl width walks)) (programWalks width walks) := by
  refine programs_of_happens fun b a b' _ hrun _ => ?_
  obtain ⟨q, hquiet, h⟩ := exists_of_programWalks hrun
  exact ⟨_, h, registers_of_quiet hquiet⟩

/-- Bases that are not refused are written. -/
theorem programs_setRoots (low high : PhysAddr) :
    Programs Granted (fun f => (f.set .ttbr0 low.val).set .ttbr1 high.val)
      (setRoots low high).run := by
  refine programs_of_happens fun b r b' _ hrun hgood => ?_
  cases r with
  | error e => exact absurd hgood id
  | ok u =>
    obtain ⟨q, hquiet, h⟩ := exists_of_setRoots hrun
    exact ⟨_, h, registers_of_quiet hquiet⟩

theorem emits_dropCached {P : Event → Prop} (h : ∀ e ∈ dropping, P e) : Emits P dropCached := by
  have hemit : ∀ e ∈ dropping, (∀ r, replay r [e] = r) → (∀ f, registers f [e] = f) →
      Emits P (emit e) := fun e he => emits_emit (h e he)
  unfold dropCached
  refine emits_bind (hemit _ (by decide) (fun _ => rfl) fun _ => rfl) fun _ => ?_
  refine emits_bind (hemit _ (by decide) (fun _ => rfl) fun _ => rfl) fun _ => ?_
  refine emits_bind (hemit _ (by decide) (fun _ => rfl) fun _ => rfl) fun _ => ?_
  exact hemit _ (by decide) (fun _ => rfl) fun _ => rfl

theorem quiet_dropping : ∀ e ∈ dropping, Quiet e := by
  simp [dropping, Quiet]

/-- Turning address resolution on adds the bit to what the register held. -/
theorem programs_enable :
    Programs Any (fun f => f.set .sctlr (f.get .sctlr ||| resolving)) enable := by
  refine programs_of_happens fun b a b' hfaithful hrun _ => ?_
  obtain ⟨q, hquiet, h⟩ := exists_of_enable hrun
  refine ⟨_, h, ?_⟩
  rw [Processor.answer, hfaithful]
  exact registers_of_quiet hquiet

theorem programs_switchWalks (walks : Walks) :
    Programs Any (fun f => f.set .tcr (withWalks (f.get .tcr) walks)) (switchWalks walks) := by
  refine programs_of_happens fun b a b' hfaithful hrun _ => ?_
  obtain ⟨q, hquiet, h⟩ := exists_of_switchWalks hrun
  refine ⟨_, h, ?_⟩
  rw [Processor.answer, hfaithful]
  exact registers_of_quiet hquiet

/-- The registers after the whole sequence. -/
def applied (low high : PhysAddr) (width : VaWidth) (walks : Walks) (f : PerRegister Word) :
    PerRegister Word :=
  ((((f.set .mair attributes).set .tcr (walkControl width walks)).set .ttbr0 low.val).set .ttbr1
    high.val).set .sctlr (f.get .sctlr ||| resolving)

theorem programs_apply (low high : PhysAddr) (width : VaWidth) (walks : Walks) :
    Programs Granted (applied low high width walks) (apply low high width walks).run := by
  have hquiet : ∀ {x : BoardM Unit}, Emits Quiet x →
      Programs Granted id (liftM x : ExceptT BaseError BoardM Unit).run :=
    fun h => programs_lift (programs_quiet h)
  exact programs_bindE (programs_lift (programs_writeVerified ..)) fun _ =>
    programs_bindE (programs_lift (programs_programWalks ..)) fun _ =>
    programs_bindE (programs_setRoots low high) fun _ =>
    programs_bindE (hquiet (emits_dsb _)) fun _ => programs_bindE (hquiet emits_isb) fun _ =>
    programs_bindE (hquiet (emits_dropCached quiet_dropping)) fun _ =>
    programs_bindE (programs_lift programs_enable) fun _ =>
    programs_bindE (hquiet emits_isb) fun _ => programs_bindE (hquiet (emits_dsb _)) fun _ =>
    programs_bindE (hquiet emits_isb) fun _ => hquiet (emits_note ..)

end Control

/-! ## The move -/

namespace Relocations

theorem emits_rebaseFrom {P : Event → Prop} (h : ∀ s, P (.store s)) (w : Window)
    (t : Relocations) (d : Word) (i n : Nat) : Emits P (rebaseFrom w t d i n) := by
  induction n generalizing i with
  | zero => exact emits_pure _
  | succ n ih =>
    unfold rebaseFrom
    refine emits_bind emits_get fun b => emits_ite (emits_throw _) ?_
    exact emits_bind (emits_store (h _)) fun _ => ih (i + 1)

theorem emits_rebase {P : Event → Prop} (h : ∀ s, P (.store s)) (w : Window) (t : Relocations)
    (d : Word) : Emits P (rebase w t d) := by
  unfold rebase
  refine emits_bind emits_get fun b => emits_ite (emits_throw _) ?_
  refine emits_bind (emits_rebaseFrom h ..) fun _ => ?_
  exact emits_bind (emits_note ..) fun _ => emits_pure _

end Relocations

namespace Transition

variable {c : MemoryConfig} {l : ImageLayout} {roots : Roots}

/-- Turning address resolution on, with the vectors at their physical address. -/
theorem programs_enable (c : MemoryConfig) (l : ImageLayout) (roots : Roots) :
    Programs Granted
      (fun f => Control.applied roots.low roots.high c.width .dual (f.set .vbar l.vectors.val))
      (enable c l roots).run := by
  refine ⟨fun s r s' hfaithful hrun hgood => ?_⟩
  cases r with
  | error a => exact absurd hgood id
  | ok u =>
    unfold enable at hrun
    obtain ⟨_, s₁, hvectors, hrest₁⟩ := exists_of_run_bindE hrun
    obtain ⟨hregisters₁, hbehaviour₁⟩ := (programs_board (Control.programs_writeVerified ..)).run
      s _ s₁ hfaithful (exists_of_lift hvectors) trivial
    obtain ⟨res, s₂, happly, hrest₂⟩ := exists_of_run_bindE hrest₁
    cases res with
    | error e => cases hrest₂
    | ok u =>
      obtain ⟨hregisters₂, hbehaviour₂⟩ :=
        (programs_onMemory (programs_onBoard (Control.programs_apply ..))).run
          s₁ _ s₂ (by rwa [hbehaviour₁]) (exists_of_lift happly) trivial
      obtain ⟨hregisters₃, hbehaviour₃⟩ :=
        (emits_board (P := Unwritten) (emits_advance ..)).registers_eq (exists_of_lift hrest₂)
      rw [hregisters₃, hregisters₂, hregisters₁, hbehaviour₃, hbehaviour₂, hbehaviour₁]
      exact ⟨rfl, rfl⟩

theorem emits_shiftWindow {P : Event → Prop} (d : Word) : Emits P (Memory.shiftWindow d) := by
  unfold Memory.shiftWindow
  refine emits_bind (emits_updateFrames _) fun _ => emits_bind emits_get fun _ => ?_
  exact emits_onBoard (emits_note ..)

theorem emits_moveExecution (c : MemoryConfig) : Emits Unwritten (moveExecution c) := by
  unfold moveExecution
  refine emits_bind ?_ fun d => ?_
  · refine emits_bind (emits_emit (fun r v h => ?_) (fun _ => rfl) fun _ => rfl) fun _ => ?_
    · cases h
    · exact emits_bind emits_get fun _ => emits_pure _
  · refine emits_bind ((emits_arrive _).mono fun _ => Quiet.unwritten) fun _ => ?_
    exact emits_bind (emits_advance ..) fun _ => emits_pure _

theorem programs_moveVectors (c : MemoryConfig) (l : ImageLayout) :
    Programs Any (·.set .vbar (l.vectors.val ||| c.highBase)) (moveVectors c l) := by
  refine programs_of_happens fun b a b' _ hrun _ => ?_
  obtain ⟨q, hquiet, h⟩ := exists_of_moveVectors hrun
  exact ⟨_, h, registers_of_quiet hquiet⟩

/-- Of the registers, leaving the low half behind changes the walks alone. -/
theorem programs_collapse (c : MemoryConfig) (l : ImageLayout) (d : Word) :
    Programs Any (fun f => f.set .tcr (Control.withWalks (f.get .tcr) .highOnly))
      (collapse c l d) := by
  have hquiet : ∀ {α : Type} {x : BoardM α}, Emits Quiet x →
      Programs Any id (liftM x : SpaceM α) := fun h => programs_board (programs_quiet h)
  unfold collapse
  refine programs_after (programs_of_emits emits_get) fun s => ?_
  refine programs_after (hquiet ?_) fun there => ?_
  · exact emits_bind (emits_follow trivial) fun _ => emits_bind emits_get fun _ => emits_pure _
  refine programs_after (programs_of_emits (emits_onMemory (emits_shiftWindow _))) fun _ => ?_
  refine programs_after (programs_of_emits emits_get) fun s => ?_
  refine programs_after (programs_of_emits (emits_board (Relocations.emits_rebase ?_ ..)))
    fun _ => ?_
  · exact fun s r v h => by cases h
  refine programs_after (programs_of_emits emits_get) fun s => ?_
  refine programs_after (hquiet (emits_followNames (fun _ => trivial) _)) fun _ => ?_
  refine programs_before (programs_board (Control.programs_switchWalks _)) fun _ => ?_
  refine programs_after (hquiet (Control.emits_dropCached Control.quiet_dropping)) fun _ => ?_
  refine programs_after (programs_of_emits (emits_of_still fun _ => rfl)) fun _ => ?_
  exact programs_of_emits (emits_board (emits_advance ..))

/-- The registers once the vectors have moved and the low half is left behind. -/
def completed (c : MemoryConfig) (l : ImageLayout) (f : PerRegister Word) : PerRegister Word :=
  (f.set .vbar (l.vectors.val ||| c.highBase)).set .tcr
    (Control.withWalks (f.get .tcr) .highOnly)

theorem programs_complete (c : MemoryConfig) (l : ImageLayout) :
    Programs Any (completed c l) (complete c l) := by
  unfold complete
  refine programs_after (programs_of_emits (emits_board (emits_moveExecution c))) fun d => ?_
  refine programs_after (programs_board (programs_quiet (emits_followHeld (fun _ => trivial) _)))
    fun _ => ?_
  have hdone : Programs Any id (pure d : SpaceM Word) := programs_of_emits (emits_pure d)
  have hrest := programs_bind (programs_board (programs_moveVectors c l)) fun _ =>
    programs_before (programs_collapse c l d) fun _ => hdone
  exact hrest

/-- The registers `f'` once the low half is not walked any more, if they held `f` at first. -/
structure Programmed (l : ImageLayout) (roots : Roots) (f f' : PerRegister Word) : Prop where
  attributes : f'.get .mair = Control.attributes
  walks : f'.get .tcr = Control.walkControl .bits48 .highOnly
  low : f'.get .ttbr0 = roots.low.val
  high : f'.get .ttbr1 = roots.high.val
  vectors : f'.get .vbar = l.vectors.val ||| highBase
  control : f'.get .sctlr = f.get .sctlr ||| Control.resolving

/-- A move that is prepared and completed leaves the registers as they have to be. -/
theorem programmed_completed (hwidth : c.width = .bits48) (f : PerRegister Word) :
    Programmed l roots f (completed c l
      (Control.applied roots.low roots.high c.width .dual (f.set .vbar l.vectors.val))) where
  attributes := rfl
  walks := by
    rw [hwidth]
    exact withWalks_walkControl .bits48
  low := rfl
  high := rfl
  vectors := by
    rw [← MemoryConfig.highBase_of_width hwidth]
    rfl
  control := rfl

/-- Building the tables and checking them write no register, turning address resolution on does. -/
theorem registers_of_prepare {s s' : Space} (hfaithful : s.memory.board.cpu.behaviour.Faithful)
    (hrun : (prepare c l).run s = .ok (.ok roots) s') :
    c.width = .bits48 ∧
      s'.memory.board.cpu.registers = Control.applied roots.low roots.high c.width .dual
        (s.memory.board.cpu.registers.set .vbar l.vectors.val) ∧
      s'.memory.board.cpu.behaviour = s.memory.board.cpu.behaviour := by
  obtain ⟨hwidth, s₁, s₂, s₃, hbuild, hdual, hcheck, henable⟩ := stages_of_prepare hrun
  obtain ⟨hregisters₁, hbehaviour₁⟩ :=
    ((emits_buildRoots c).mono fun _ => Builds.unwritten).registers_eq hbuild
  obtain ⟨hregisters₂, hbehaviour₂⟩ :=
    ((emits_mapDual c l roots).mono fun _ => Builds.unwritten).registers_eq hdual
  obtain ⟨hregisters₃, hbehaviour₃⟩ := (emits_checkAll c l roots).registers_eq hcheck
  have hbehaviour : s₃.memory.board.cpu.behaviour = s.memory.board.cpu.behaviour :=
    hbehaviour₃.trans (hbehaviour₂.trans hbehaviour₁)
  have hregisters : s₃.memory.board.cpu.registers = s.memory.board.cpu.registers :=
    hregisters₃.trans (hregisters₂.trans hregisters₁)
  obtain ⟨hregisters₄, hbehaviour₄⟩ :=
    (programs_enable c l roots).run s₃ _ s' (by rw [← hbehaviour] at hfaithful; exact hfaithful)
      henable trivial
  refine ⟨hwidth, ?_, hbehaviour₄.trans hbehaviour⟩
  rw [← hregisters]
  exact hregisters₄

/-- A move that is completed leaves the registers as they have to be. -/
theorem programmed_of_run {s s' : Space} {arrival : Arrival}
    (hfaithful : s.memory.board.cpu.behaviour.Faithful)
    (hrun : (run c l).run s = .ok (.ok arrival) s') :
    Programmed l arrival.roots s.memory.board.cpu.registers s'.memory.board.cpu.registers := by
  unfold run at hrun
  obtain ⟨roots, s₁, hprepare, hrest⟩ := exists_of_run_bindE hrun
  obtain ⟨d, s₂, hcomplete, hdone⟩ := exists_of_run_bindE hrest
  cases hdone
  obtain ⟨hwidth, hprepared, hbehaviour⟩ := registers_of_prepare hfaithful hprepare
  obtain ⟨hcompleted, -⟩ := (programs_complete c l).run s₁ d s'
    (by rw [← hbehaviour] at hfaithful; exact hfaithful) (exists_of_lift hcomplete) trivial
  have hregisters : s'.memory.board.cpu.registers = _ :=
    hcompleted.trans (congrArg (completed c l) hprepared)
  rw [hregisters]
  exact programmed_completed hwidth _

end Transition

end HighHalf
