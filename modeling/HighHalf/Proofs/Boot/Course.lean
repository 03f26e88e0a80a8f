import HighHalf.Proofs.Control.Registers

/-!
# The course of a boot

Until the end of a boot, the move changes memory, the ledger and the tables in use, and nothing
else that the address space records. If it is given up, then in a phase before address resolution
is turned on. So a boot that returns has one of two outcomes, and each of them settles everything
that is recorded at once.

## Main definitions

* `Ensures`: what a step that returns has done to the state
* `Transition.Cautious`: a step of the move that records nothing and is given up early at most
* `Space.Standing`: what the address space records before a boot and after each outcome of one
-/

namespace HighHalf

open Event Board

variable {ε σ α β δ : Type}

/-! ## What a step does to the state -/

/-- If the step returns, `R` relates the state before to the state after. -/
structure Ensures (R : σ → σ → Prop) (x : EStateM ε σ α) : Prop where
  of_ok : ∀ {s a s'}, x s = .ok a s' → R s s'

section Ensures

variable {R : σ → σ → Prop} {x : EStateM ε σ α} {f : α → EStateM ε σ β}

theorem ensures_pure [Std.Refl R] (a : α) : Ensures R (pure a : EStateM ε σ α) := by
  refine ⟨fun hrun => ?_⟩
  cases hrun
  exact Std.Refl.refl _

theorem ensures_get [Std.Refl R] : Ensures R (get : EStateM ε σ σ) := by
  refine ⟨fun hrun => ?_⟩
  cases hrun
  exact Std.Refl.refl _

theorem ensures_check [Std.Refl R] (r : Except Fatal α) :
    Ensures R (liftM r : EStateM Fatal σ α) := by
  cases r with
  | ok a => exact ensures_pure a
  | error e => exact ⟨fun hrun => by cases hrun⟩

theorem ensures_bind [IsTrans σ R] (hx : Ensures R x) (hf : ∀ a, Ensures R (f a)) :
    Ensures R (x >>= f) := by
  refine ⟨fun hrun => ?_⟩
  obtain ⟨a, s', hxs, hrest⟩ := exists_of_run_bind hrun
  exact IsTrans.trans _ _ _ (hx.of_ok hxs) ((hf a).of_ok hrest)

/-- What only concerns the state after is up to the last step. -/
theorem ensures_last {P : σ → Prop} (hf : ∀ a, Ensures (fun _ => P) (f a)) :
    Ensures (fun _ => P) (x >>= f) := by
  refine ⟨fun hrun => ?_⟩
  obtain ⟨a, s', -, hrest⟩ := exists_of_run_bind hrun
  exact (hf a).of_ok hrest

end Ensures

section EnsuresE

variable {R : σ → σ → Prop} {x y : ExceptT δ (EStateM ε σ) α}
  {f : α → ExceptT δ (EStateM ε σ) β}

theorem ensures_pureE [Std.Refl R] (a : α) :
    Ensures R (pure a : ExceptT δ (EStateM ε σ) α).run :=
  ensures_pure _

theorem ensures_getE [Std.Refl R] : Ensures R (get : ExceptT δ (EStateM ε σ) σ).run := by
  refine ⟨fun hrun => ?_⟩
  cases hrun
  exact Std.Refl.refl _

theorem ensures_throwE [Std.Refl R] (d : δ) :
    Ensures R (throw d : ExceptT δ (EStateM ε σ) α).run :=
  ensures_pure _

theorem ensures_checkE [Std.Refl R] (r : Except δ α) :
    Ensures R (liftM r : ExceptT δ (EStateM ε σ) α).run := by
  cases r with
  | ok a => exact ensures_pure _
  | error e => exact ensures_pure _

theorem ensures_lift [Std.Refl R] [IsTrans σ R] {x : EStateM ε σ α} (h : Ensures R x) :
    Ensures R (liftM x : ExceptT δ (EStateM ε σ) α).run := by
  show Ensures R (x >>= fun a => (pure (.ok a) : EStateM ε σ (Except δ α)))
  exact ensures_bind h fun a => ensures_pure _

theorem ensures_bindE [Std.Refl R] [IsTrans σ R] (hx : Ensures R x.run)
    (hf : ∀ a, Ensures R (f a).run) : Ensures R (x >>= f).run := by
  refine ensures_bind (f := ExceptT.bindCont f) hx fun r => ?_
  cases r with
  | ok a => exact hf a
  | error d => exact ensures_pure _

/-- A refusal, whatever would follow. -/
theorem ensures_refusalE [Std.Refl R] (d : δ) :
    Ensures R ((throw d : ExceptT δ (EStateM ε σ) α) >>= f).run :=
  ensures_pure _

theorem ensures_iteE {c : Prop} [Decidable c] (hx : Ensures R x.run) (hy : Ensures R y.run) :
    Ensures R (if c then x else y).run := by
  split
  · exact hx
  · exact hy

end EnsuresE

/-! ## What the move leaves alone -/

/-- Nothing has changed but memory, the ledger and the tables in use. -/
def Space.Moving (s s' : Space) : Prop :=
  ∃ m l v, s' = { s with memory := m, ledger := l, live := v }

instance : Std.Refl Space.Moving := ⟨fun s => ⟨s.memory, s.ledger, s.live, rfl⟩⟩

instance : IsTrans Space Space.Moving := by
  refine ⟨fun s s' s'' h h' => ?_⟩
  obtain ⟨m, l, v, rfl⟩ := h
  obtain ⟨m', l', v', rfl⟩ := h'
  exact ⟨m', l', v', rfl⟩

theorem ensures_onMemory (x : EStateM ε Memory α) : Ensures Space.Moving (Space.onMemory x) := by
  refine ⟨fun hrun => ?_⟩
  obtain ⟨m, -, rfl⟩ := Space.exists_of_onMemory hrun
  exact ⟨m, _, _, rfl⟩

theorem ensures_board (x : BoardM α) : Ensures Space.Moving (liftM x : SpaceM α) :=
  ensures_onMemory _

theorem ensures_modify {g : Space → Space} (hg : ∀ s, Space.Moving s (g s)) :
    Ensures Space.Moving (modify g : SpaceM Unit) := by
  refine ⟨fun hrun => ?_⟩
  cases hrun
  exact hg _

theorem ensures_recordMapping (m : Mapping) : Ensures Space.Moving (Space.record m) := by
  unfold Space.record
  refine ensures_bind ensures_get fun s => ensures_bind (ensures_board _) fun l => ?_
  exact ensures_modify fun s => ⟨_, _, _, rfl⟩

/-- The phases in which the move can still be given up. -/
def Phase.early : List Phase := [.start, .tablesBuilt, .dualMapped]

theorem Phase.allows_bypass : ∀ p ∈ early, p.allows bypass = true := by decide

namespace Transition

/-- The step leaves alone what the move leaves alone, and gives up early at most. -/
structure Cautious (x : MoveM α) : Prop where
  moving : Ensures Space.Moving x.run
  early : ∀ {s a s'}, x.run s = .ok (.error a) s' → a.phase ∈ Phase.early

section Cautious

variable {x y : MoveM α} {f : α → MoveM β}

theorem cautious_pure (a : α) : Cautious (pure a : MoveM α) :=
  ⟨ensures_pureE a, fun hrun => by cases hrun⟩

theorem cautious_get : Cautious (get : MoveM Space) :=
  ⟨ensures_getE, fun hrun => by cases hrun⟩

/-- Giving up early. -/
theorem cautious_throw {p : Phase} {cause : Cause} (h : p ∈ Phase.early) :
    Cautious (throw ⟨p, cause⟩ : MoveM α) := by
  refine ⟨ensures_throwE _, fun hrun => ?_⟩
  cases hrun
  exact h

theorem cautious_lift {x : SpaceM α} (h : Ensures Space.Moving x) : Cautious (liftM x) :=
  ⟨ensures_lift h, fun hrun => absurd hrun run_lift_ne_error⟩

theorem cautious_bind (hx : Cautious x) (hf : ∀ a, Cautious (f a)) : Cautious (x >>= f) := by
  refine ⟨ensures_bindE hx.moving fun a => (hf a).moving, fun hrun => ?_⟩
  rcases cases_of_run_bindE hrun with hfirst | ⟨a, s', -, hrest⟩
  · exact hx.early hfirst
  · exact (hf a).early hrest

theorem cautious_refusal {p : Phase} {cause : Cause} (h : p ∈ Phase.early) :
    Cautious ((throw ⟨p, cause⟩ : MoveM α) >>= f) := by
  refine ⟨ensures_pure _, fun hrun => ?_⟩
  cases hrun
  exact h

theorem cautious_ite {c : Prop} [Decidable c] (hx : Cautious x) (hy : Cautious y) :
    Cautious (if c then x else y) := by
  split
  · exact hx
  · exact hy

theorem cautious_board (x : BoardM α) : Cautious (liftM x : MoveM α) :=
  cautious_lift (ensures_board x)

theorem cautious_check (r : Except Fatal α) : Cautious (liftM (liftM r : SpaceM α) : MoveM α) :=
  cautious_lift (ensures_check r)

end Cautious

/-! ## The parts of the move -/

variable {c : MemoryConfig} {l : ImageLayout} {roots : Roots}

theorem cautious_rootFrame : Cautious rootFrame := by
  unfold rootFrame
  refine cautious_bind (cautious_lift (ensures_onMemory _)) fun p => ?_
  cases p with
  | some p => exact cautious_pure p
  | none => exact cautious_throw (by decide)

theorem cautious_buildRoots (c : MemoryConfig) : Cautious (buildRoots c) := by
  unfold buildRoots
  refine cautious_bind (cautious_lift (ensures_onMemory _)) fun n => ?_
  refine cautious_bind (cautious_board _) fun _ => ?_
  refine cautious_bind cautious_rootFrame fun low => cautious_bind cautious_rootFrame fun high => ?_
  refine cautious_bind (cautious_board _) fun _ => ?_
  exact cautious_bind (cautious_board _) fun _ => cautious_pure _

theorem cautious_mapInto (root : PhysAddr) (name : String) (start : VirtAddr) (r : PhysRange)
    (f : Flags) : Cautious (mapInto root name start r f) := by
  unfold mapInto
  refine cautious_bind (cautious_lift (ensures_onMemory _)) fun n => ?_
  cases n with
  | error e => exact cautious_throw (by decide)
  | ok n => exact cautious_lift (ensures_recordMapping _)

theorem cautious_mapTwice (roots : Roots) (high : Word) (region : Region) :
    Cautious (mapTwice roots high region) := by
  unfold mapTwice
  refine cautious_bind (cautious_check _) fun r => cautious_ite (cautious_pure _) ?_
  exact cautious_bind (cautious_mapInto ..) fun _ => cautious_mapInto ..

theorem cautious_mapAllTwice (roots : Roots) (high : Word) (regions : List Region) :
    Cautious (mapAllTwice roots high regions) := by
  induction regions with
  | nil => exact cautious_pure _
  | cons region rest ih =>
    unfold mapAllTwice
    exact cautious_bind (cautious_mapTwice ..) fun _ => ih

theorem cautious_mapDual (c : MemoryConfig) (l : ImageLayout) (roots : Roots) :
    Cautious (mapDual c l roots) := by
  unfold mapDual
  refine cautious_bind (cautious_mapInto ..) fun _ => cautious_bind (cautious_check _) fun rs => ?_
  refine cautious_bind (cautious_mapAllTwice ..) fun _ => ?_
  refine cautious_bind (cautious_lift (ensures_modify fun s => ⟨_, _, _, rfl⟩)) fun _ => ?_
  exact cautious_board _

theorem cautious_checkEntry (region : Region) (p : PhysAddr) (v : VirtAddr) (e : Entry) :
    Cautious (checkEntry region p v e) := by
  unfold checkEntry
  refine cautious_ite ?_ (cautious_ite (cautious_throw (by decide)) (cautious_pure _))
  exact cautious_bind (cautious_board _) fun _ => cautious_refusal (by decide)

theorem cautious_checkPages (roots : Roots) (high : Word) (region : Region) (r : PhysRange)
    (i n : Nat) : Cautious (checkPages roots high region r i n) := by
  induction n generalizing i with
  | zero => exact cautious_pure _
  | succ n ih =>
    unfold checkPages
    refine cautious_bind cautious_get fun s => cautious_bind (cautious_checkEntry ..) fun _ => ?_
    exact cautious_bind (cautious_checkEntry ..) fun _ => ih (i + 1)

theorem cautious_checkRegions (roots : Roots) (high : Word) (regions : List Region) :
    Cautious (checkRegions roots high regions) := by
  induction regions with
  | nil => exact cautious_pure _
  | cons region rest ih =>
    unfold checkRegions
    refine cautious_bind (cautious_check _) fun r => ?_
    refine cautious_bind (cautious_checkPages ..) fun _ => ?_
    exact cautious_bind ih fun _ => cautious_pure _

theorem cautious_checkAll (c : MemoryConfig) (l : ImageLayout) (roots : Roots) :
    Cautious (check c l roots) := by
  unfold check
  dsimp only
  refine cautious_bind (cautious_check _) fun regions => ?_
  refine cautious_bind (cautious_checkRegions ..) fun pages => ?_
  refine cautious_bind cautious_get fun s => ?_
  split
  · exact cautious_throw (by decide)
  · refine cautious_bind (cautious_board _) fun sp => cautious_ite (cautious_refusal (by decide)) ?_
    refine cautious_bind cautious_get fun s => cautious_bind (cautious_board _) fun conflicts => ?_
    refine cautious_ite (cautious_bind (cautious_board _) fun _ => ?_) ?_
    · exact cautious_board _
    · exact cautious_board _

theorem cautious_enable (c : MemoryConfig) (l : ImageLayout) (roots : Roots) :
    Cautious (enable c l roots) := by
  unfold enable
  refine cautious_bind (cautious_board _) fun _ => ?_
  refine cautious_bind (cautious_lift (ensures_onMemory _)) fun r => ?_
  cases r with
  | error e => exact cautious_throw (by decide)
  | ok u => exact cautious_board _

theorem cautious_prepare (c : MemoryConfig) (l : ImageLayout) : Cautious (prepare c l) := by
  unfold prepare
  refine cautious_ite (cautious_refusal (by decide)) ?_
  refine cautious_bind (cautious_buildRoots c) fun roots => ?_
  refine cautious_bind (cautious_mapDual ..) fun _ => ?_
  refine cautious_bind (cautious_checkAll ..) fun _ => ?_
  exact cautious_bind (cautious_enable ..) fun _ => cautious_pure _

theorem ensures_collapse (c : MemoryConfig) (l : ImageLayout) (d : Word) :
    Ensures Space.Moving (collapse c l d) := by
  unfold collapse
  refine ensures_bind ensures_get fun s => ensures_bind (ensures_board _) fun there => ?_
  refine ensures_bind (ensures_onMemory _) fun _ => ensures_bind ensures_get fun s => ?_
  refine ensures_bind (ensures_board _) fun _ => ensures_bind ensures_get fun s => ?_
  refine ensures_bind (ensures_board _) fun _ => ensures_bind (ensures_board _) fun _ => ?_
  refine ensures_bind (ensures_board _) fun _ => ?_
  refine ensures_bind (ensures_modify fun s => ⟨_, _, _, rfl⟩) fun _ => ensures_board _

theorem ensures_complete (c : MemoryConfig) (l : ImageLayout) :
    Ensures Space.Moving (complete c l) := by
  unfold complete
  refine ensures_bind (ensures_board _) fun d => ensures_bind (ensures_board _) fun _ => ?_
  refine ensures_bind (ensures_board _) fun _ => ensures_bind (ensures_collapse ..) fun _ => ?_
  exact ensures_pure d

theorem cautious_run (c : MemoryConfig) (l : ImageLayout) : Cautious (run c l) := by
  unfold run
  refine cautious_bind (cautious_prepare ..) fun roots => ?_
  exact cautious_bind (cautious_lift (ensures_complete ..)) fun _ => cautious_pure _

end Transition

/-! ## The outcome of a boot -/

namespace Transition

/-- Once the low half is not walked any more, only the high root is in use. -/
theorem live_collapse (c : MemoryConfig) (l : ImageLayout) (d : Word) :
    Ensures (fun _ s => s.live = .highOnly) (collapse c l d) := by
  unfold collapse
  iterate 9 refine ensures_last fun _ => ?_
  refine ⟨fun hrun => ?_⟩
  obtain ⟨_, s₁, hlive, hadvance⟩ := exists_of_run_bind hrun
  cases hlive
  obtain ⟨b, -, rfl⟩ := Space.exists_of_board hadvance
  rfl

theorem live_of_run {c : MemoryConfig} {l : ImageLayout} {s s' : Space} {arrival : Arrival}
    (hrun : (run c l).run s = .ok (.ok arrival) s') : s'.live = .highOnly := by
  obtain ⟨roots, s₁, -, hrest⟩ := exists_of_run_bindE hrun
  obtain ⟨d, s₂, hcomplete, hdone⟩ := exists_of_run_bindE hrest
  cases hdone
  have hlast : Ensures (fun _ s => s.live = .highOnly) (complete c l) := by
    unfold complete
    iterate 3 refine ensures_last fun _ => ?_
    refine ⟨fun hrun => ?_⟩
    obtain ⟨_, s₃, hcollapse, hpure⟩ := exists_of_run_bind hrun
    cases hpure
    exact (live_collapse ..).of_ok hcollapse
  exact hlast.of_ok (exists_of_lift hcomplete)

end Transition

namespace Space

open Transition

/-- What the address space records of the move, where `f` are the registers before it: the move
is still ahead, it ended in the high half, or it was given up. -/
inductive Standing (l : ImageLayout) (f : PerRegister Word) (s : Space) : Prop
  | waiting (mode : s.mode = .unsettled) (phase : s.phase = .start) (live : s.live = .identity)
      (roots : s.roots = none) (abort : s.abort = none)
      (registers : s.memory.board.cpu.registers = f)
  | resolved (roots : Roots) (mode : s.mode = .resolved) (phase : s.phase = .highOnly)
      (live : s.live = .highOnly) (recorded : s.roots = some roots) (abort : s.abort = none)
      (registers : Programmed l roots f s.memory.board.cpu.registers)
  | bypass (a : Abort) (mode : s.mode = .bypass) (phase : s.phase = .bypass)
      (live : s.live = .identity) (roots : s.roots = none) (abort : s.abort = some a)
      (early : a.phase ∈ Phase.early)

variable {s s' : Space} {mode : Mode}

/-- A boot that returns sets up the frame store, and then it settles in one of two ways. -/
theorem boot_cases (hmode : s.mode = .unsettled) (hrun : boot s = .ok mode s') :
    ∃ m s₁ s₂, Memory.setup s.layout.image s.memory = .ok (.ok ()) m ∧
      s' = { s₂ with mode := mode } ∧
      ((∃ arrival, (run s.config s.layout).run (s.withMemory m) = .ok (.ok arrival) s₁ ∧
          enterHighHalf arrival s₁ = .ok () s₂ ∧ mode = .resolved) ∨
        ∃ a, (run s.config s.layout).run (s.withMemory m) = .ok (.error a) s₁ ∧
          enterBypass a (s₁.withMemory (s₁.memory.noted .error .space a.message)) = .ok () s₂ ∧
          mode = .bypass) := by
  unfold boot at hrun
  obtain ⟨_, s₁, hget₁, hrest₁⟩ := exists_of_run_bind hrun
  cases hget₁
  rw [if_neg (not_not_intro hmode)] at hrest₁
  obtain ⟨_, s₂, hget₂, hrest₂⟩ := exists_of_run_bind hrest₁
  cases hget₂
  obtain ⟨_, s₃, hget₃, hrest₃⟩ := exists_of_run_bind hrest₂
  cases hget₃
  obtain ⟨res, s₄, hsetup, hrest₄⟩ := exists_of_run_bind hrest₃
  obtain ⟨m, hm, rfl⟩ := exists_of_onMemory hsetup
  cases res with
  | error e => cases hrest₄
  | ok u =>
    obtain ⟨res, s₅, hmove, hrest₅⟩ := exists_of_run_bind hrest₄
    cases res with
    | ok arrival =>
      obtain ⟨_, s₆, henter, hsettle⟩ := exists_of_run_bind hrest₅
      cases hsettle
      exact ⟨m, s₅, s₆, hm, rfl, Or.inl ⟨arrival, hmove, henter, rfl⟩⟩
    | error a =>
      obtain ⟨_, s₆, hnote, hrest₆⟩ := exists_of_run_bind hrest₅
      obtain ⟨_, s₇, hbypass, hsettle⟩ := exists_of_run_bind hrest₆
      cases hsettle
      obtain ⟨b, hb, rfl⟩ := exists_of_board hnote
      cases hb
      exact ⟨m, s₅, s₇, hm, rfl, Or.inr ⟨a, hmove, hbypass, rfl⟩⟩

/-- The first boot that returns records the mode that it gives. -/
theorem recorded_of_boot (hmode : s.mode = .unsettled)
    (hrun : boot s = .ok mode s') : s'.mode = mode ∧ mode ≠ .unsettled := by
  obtain ⟨m, s₁, s₂, -, rfl, ⟨arrival, -, -, rfl⟩ | ⟨a, -, -, rfl⟩⟩ := boot_cases hmode hrun
  · exact ⟨rfl, by decide⟩
  · exact ⟨rfl, by decide⟩

/-- A boot whose move is made. -/
theorem run_boot_resolved {m : Memory} {s₁ s₂ : Space} {arrival : Arrival}
    (hmode : s.mode = .unsettled)
    (hsetup : Memory.setup s.layout.image s.memory = .ok (.ok ()) m)
    (hmove : (run s.config s.layout).run (s.withMemory m) = .ok (.ok arrival) s₁)
    (henter : enterHighHalf arrival s₁ = .ok () s₂) :
    boot s = .ok .resolved { s₂ with mode := .resolved } := by
  unfold boot
  refine (run_bind_ok (run_get s)).trans ?_
  rw [if_neg (not_not_intro hmode)]
  refine (run_bind_ok (run_get s)).trans ((run_bind_ok (run_get s)).trans ?_)
  refine (run_bind_ok (run_onMemory (s := s) hsetup)).trans ((run_bind_ok hmove).trans ?_)
  exact (run_bind_ok henter).trans rfl

/-- A boot whose move is given up. -/
theorem run_boot_bypass {m : Memory} {s₁ s₂ : Space} {a : Abort} (hmode : s.mode = .unsettled)
    (hsetup : Memory.setup s.layout.image s.memory = .ok (.ok ()) m)
    (hmove : (run s.config s.layout).run (s.withMemory m) = .ok (.error a) s₁)
    (henter : enterBypass a (s₁.withMemory (s₁.memory.noted .error .space a.message)) =
      .ok () s₂) :
    boot s = .ok .bypass { s₂ with mode := .bypass } := by
  unfold boot
  refine (run_bind_ok (run_get s)).trans ?_
  rw [if_neg (not_not_intro hmode)]
  refine (run_bind_ok (run_get s)).trans ((run_bind_ok (run_get s)).trans ?_)
  refine (run_bind_ok (run_onMemory (s := s) hsetup)).trans ((run_bind_ok hmove).trans ?_)
  have hnote : (liftM (note .error .space a.message) : SpaceM Unit) s₁ =
      .ok () (s₁.withMemory (s₁.memory.noted .error .space a.message)) := rfl
  exact (run_bind_ok hnote).trans ((run_bind_ok henter).trans rfl)

/-- What is left by a boot that ends in the high half. -/
theorem standing_of_enterHighHalf {f : PerRegister Word} {arrival : Arrival} {l : ImageLayout}
    (hlive : s.live = .highOnly) (habort : s.abort = none)
    (hprogrammed : Programmed l arrival.roots f s.memory.board.cpu.registers)
    (hrun : enterHighHalf arrival s = .ok () s') :
    Standing l f { s' with mode := .resolved } := by
  cases hrun
  exact .resolved arrival.roots rfl rfl hlive rfl habort hprogrammed

/-- The stages of settling for physical addresses: a line of the log, a step to the last phase, and
the vectors. -/
theorem stages_of_enterBypass {a : Abort} (hrun : enterBypass a s = .ok () s') :
    ∃ b₁ b₂ b₃ phase,
      note .warn .space "continuing with physical addressing" s.memory.board = .ok () b₁ ∧
      stepTo a.phase .bypass b₁ = .ok phase b₂ ∧
      Control.setVectors s.layout.vectors.val b₂ = .ok () b₃ ∧
      s' = { s.withMemory ⟨b₃, s.memory.frames⟩ with
        phase := phase, abort := some a, roots := none, live := .identity } := by
  unfold enterBypass at hrun
  obtain ⟨_, s₁, hnote, hrest₁⟩ := exists_of_run_bind hrun
  obtain ⟨p, s₂, hstep, hrest₂⟩ := exists_of_run_bind hrest₁
  obtain ⟨_, s₃, hmodify, hrest₃⟩ := exists_of_run_bind hrest₂
  cases hmodify
  obtain ⟨_, s₄, hget, hvectors⟩ := exists_of_run_bind hrest₃
  cases hget
  obtain ⟨b₁, hb₁, rfl⟩ := exists_of_board hnote
  obtain ⟨b₂, hb₂, rfl⟩ := exists_of_board hstep
  obtain ⟨b₃, hb₃, rfl⟩ := exists_of_board hvectors
  exact ⟨b₁, b₂, b₃, p, hb₁, hb₂, hb₃, rfl⟩

/-- A step goes to the phase that was asked for. -/
theorem eq_of_stepTo {p q r : Phase} {b b' : Board} (hrun : stepTo p q b = .ok r b') : r = q := by
  obtain ⟨q', b₁, hadvance, hdone⟩ := exists_of_run_bind hrun
  cases hdone
  unfold Phase.advance at hadvance
  split at hadvance
  · cases hadvance
    rfl
  · cases hadvance

/-- What is left by a move that was given up. -/
theorem standing_of_enterBypass {f : PerRegister Word} {a : Abort} {l : ImageLayout}
    (hearly : a.phase ∈ Phase.early) (hrun : enterBypass a s = .ok () s') :
    Standing l f { s' with mode := .bypass } := by
  obtain ⟨b₁, b₂, b₃, phase, -, hstep, -, rfl⟩ := stages_of_enterBypass hrun
  exact .bypass a rfl (eq_of_stepTo hstep) rfl rfl rfl hearly

/-- A boot that returns settles everything at once. -/
theorem standing_of_boot (hmode : s.mode = .unsettled) (habort : s.abort = none)
    (hfaithful : s.memory.board.cpu.behaviour.Faithful) (hrun : boot s = .ok mode s') :
    Standing s.layout s.memory.board.cpu.registers s' ∧ s'.mode = mode ∧ mode ≠ .unsettled := by
  obtain ⟨m, s₁, s₂, hsetup, rfl, hcases⟩ := boot_cases hmode hrun
  rcases hcases with ⟨arrival, hmove, henter, rfl⟩ | ⟨a, hmove, hbypass, rfl⟩
  · obtain ⟨hregisters, hbehaviour⟩ :
        m.board.cpu.registers = s.memory.board.cpu.registers ∧
          m.board.cpu.behaviour = s.memory.board.cpu.behaviour :=
      ((Memory.emits_setup s.layout.image).mono fun _ => Builds.unwritten).registers_eq hsetup
    have hprogrammed := programmed_of_run (s := s.withMemory m)
      (by rw [memory_withMemory, hbehaviour]; exact hfaithful) hmove
    have hlive := live_of_run hmove
    obtain ⟨m', l, v, rfl⟩ := (cautious_run ..).moving.of_ok hmove
    rw [memory_withMemory, hregisters] at hprogrammed
    exact ⟨standing_of_enterHighHalf hlive habort hprogrammed henter, rfl, by decide⟩
  · exact ⟨standing_of_enterBypass ((cautious_run ..).early hmove) hbypass, rfl, by decide⟩

/-- Once the mode is settled, a boot gives it, and does nothing but log a line. -/
theorem boot_again (hmode : s.mode ≠ .unsettled) :
    boot s = .ok s.mode (s.withMemory (s.memory.noted .debug .space
      s!"memory subsystem already initialized ({s.mode})")) := by
  unfold boot
  refine (run_bind_ok (run_get s)).trans ?_
  rw [if_pos hmode]
  rfl

end Space

end HighHalf
