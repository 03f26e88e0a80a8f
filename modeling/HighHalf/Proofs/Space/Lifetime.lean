import HighHalf.Proofs.Boot.Resolved

/-!
# The address space over its lifetime

The rest of the kernel only asks the address space for things. Of all that it may ask, a boot
alone writes registers or changes what is recorded of the move, and only the first one that
returns does. So in every state of every run the records agree with each other and with the
registers.

## Main definitions

* `Space.Call`: what may be asked
* `Space.Later`: a state is reached from another by calls that return
* `Space.Served`: what any call but the first boot leaves alone
-/

namespace HighHalf

open Event Board

variable {ε α : Type}

/-! ## More steps that write no register -/

namespace Memory

theorem emits_release (p : PhysAddr) : Emits Builds (release p) := by
  unfold release
  refine emits_bind emits_get fun m => ?_
  split
  · exact emits_bind (emits_onBoard (emits_note ..)) fun _ => emits_pure _
  · refine emits_bind emits_get fun m => emits_bind (emits_mark ..) fun _ => ?_
    exact emits_bind (emits_updateFrames _) fun _ => emits_pure _

theorem emits_summarize {P : Event → Prop} : Emits P summarize := by
  unfold summarize
  refine emits_bind emits_get fun m => emits_ite (emits_onBoard (emits_note ..)) ?_
  refine emits_bind (emits_onBoard (emits_note ..)) fun _ => emits_bind emits_get fun m => ?_
  refine emits_bind (emits_onBoard (emits_note ..)) fun _ => ?_
  split
  · exact emits_onBoard (emits_note ..)
  · exact emits_pure _

end Memory

theorem Tables.emits_unmapPage (w : Window) (root : PhysAddr) (v : VirtAddr) :
    Emits Builds (unmapPage w root v).run := by
  unfold unmapPage
  refine emits_bindE emits_getE fun b => ?_
  split
  · exact emits_throwE _
  · refine emits_bindE (emits_lift (emits_load _)) fun old => emits_iteE (emits_refusalE _) ?_
    exact emits_bindE (emits_lift (emits_install ..)) fun _ => emits_pureE _

theorem Ledger.emits_logAll {P : Event → Prop} (l : Ledger) : Emits P l.logAll := by
  unfold logAll
  refine emits_bind (emits_forIn fun m _ => ?_) fun _ => emits_ite (emits_note ..) (emits_pure _)
  exact emits_bind (emits_note ..) fun _ => emits_pure _

/-! ## Calls -/

namespace Space

/-- What may be asked of the address space. -/
inductive Call where
  | boot
  | allocate
  /-- Any address may be given back, whoever holds it. -/
  | release (p : PhysAddr)
  | mapRange (start stop : VirtAddr) (p : PhysAddr) (f : Flags)
  | mapDevice (p : PhysAddr) (size : Word)
  | unmap (v : VirtAddr)
  | describe (v : VirtAddr)
  | summarize
  | logLedger
  | conflicts
  | processorResolves

/-- Carry a call out. What it answers is left out. -/
def Call.run : Call → SpaceM Unit
  | .boot => do let _ ← Space.boot
  | .allocate => do let _ ← Space.allocate
  | .release p => do let _ ← Space.release p
  | .mapRange start stop p f => do let _ ← (Space.mapRange start stop p f).run
  | .mapDevice p size => do let _ ← (Space.mapDevice p size).run
  | .unmap v => do let _ ← (Space.unmap v).run
  | .describe v => Space.describe v
  | .summarize => Space.summarize
  | .logLedger => Space.logLedger
  | .conflicts => do let _ ← Space.conflicts
  | .processorResolves => do let _ ← Space.processorResolves

/-- A state that is reached by calls which all return. -/
inductive Later (s : Space) : Space → Prop where
  | refl : Later s s
  | step {s' s'' : Space} (call : Call) : Later s s' → call.run s' = .ok () s'' → Later s s''

/-- Nothing has changed but memory and the ledger, and no register has been written. -/
structure Served (s s' : Space) : Prop where
  kept : ∃ m l, s' = { s with memory := m, ledger := l }
  registers : s'.memory.board.cpu.registers = s.memory.board.cpu.registers
  behaviour : s'.memory.board.cpu.behaviour = s.memory.board.cpu.behaviour

instance : Std.Refl Served := ⟨fun s => ⟨⟨s.memory, s.ledger, rfl⟩, rfl, rfl⟩⟩

instance : IsTrans Space Served := by
  refine ⟨fun s s' s'' h h' => ?_⟩
  obtain ⟨m, l, rfl⟩ := h.kept
  obtain ⟨m', l', rfl⟩ := h'.kept
  exact ⟨⟨m', l', rfl⟩, h'.registers.trans h.registers, h'.behaviour.trans h.behaviour⟩

/-! ## What each call leaves alone -/

theorem served_onMemory {x : EStateM ε Memory α} (h : Emits Unwritten x) :
    Ensures Served (onMemory x) := by
  refine ⟨fun hrun => ?_⟩
  obtain ⟨hregisters, hbehaviour⟩ := (emits_onMemory h).registers_eq hrun
  obtain ⟨m, -, rfl⟩ := exists_of_onMemory hrun
  exact ⟨⟨m, _, rfl⟩, hregisters, hbehaviour⟩

theorem served_board {x : BoardM α} (h : Emits Unwritten x) :
    Ensures Served (liftM x : SpaceM α) :=
  served_onMemory (emits_onBoard h)

theorem served_boardE {δ : Type} {x : BoardM α} (h : Emits Unwritten x) :
    Ensures Served (liftM (liftM x : SpaceM α) : ExceptT δ SpaceM α).run :=
  ensures_lift (served_board h)

theorem served_record (m : Mapping) : Ensures Served (record m) := by
  unfold record
  refine ensures_bind ensures_get fun s => ?_
  refine ensures_bind (served_board (Ledger.emits_record ..)) fun l => ⟨fun hrun => ?_⟩
  cases hrun
  exact ⟨⟨_, _, rfl⟩, rfl, rfl⟩

theorem served_dropCached {δ : Type} :
    Ensures Served (liftM (liftM Control.dropCached : SpaceM Unit) : ExceptT δ SpaceM Unit).run :=
  served_boardE (Control.emits_dropCached fun e he => (Control.quiet_dropping e he).unwritten)

theorem served_mapNamed (name : String) (start stop : VirtAddr) (p : PhysAddr) (f : Flags) :
    Ensures Served (mapNamed name start stop p f).run := by
  unfold mapNamed
  refine ensures_bindE ensures_getE fun s => ?_
  cases s.mode with
  | unsettled => exact ensures_throwE _
  | bypass => exact ensures_bindE (served_boardE (emits_note ..)) fun _ => ensures_pureE _
  | resolved =>
    refine ensures_bindE ensures_getE fun s => ensures_bindE (ensures_checkE _) fun root => ?_
    refine ensures_bindE (ensures_lift (served_onMemory ?_)) fun mapped => ?_
    · exact (Tables.emits_mapRange ..).mono fun _ => Builds.unwritten
    refine ensures_bindE served_dropCached fun _ => ensures_bindE (ensures_checkE _) fun pages => ?_
    refine ensures_bindE (ensures_lift (served_record _)) fun _ => ?_
    exact ensures_bindE (served_boardE (emits_note ..)) fun _ => ensures_pureE _

theorem served_mapDevice (p : PhysAddr) (size : Word) : Ensures Served (mapDevice p size).run := by
  unfold mapDevice
  split
  · exact ensures_throwE _
  · exact ensures_bindE ensures_getE fun s => served_mapNamed ..

theorem served_unmap (v : VirtAddr) : Ensures Served (unmap v).run := by
  unfold unmap
  refine ensures_bindE ensures_getE fun s => ?_
  cases s.mode with
  | unsettled => exact ensures_throwE _
  | bypass => exact ensures_pureE _
  | resolved =>
    refine ensures_bindE ensures_getE fun s => ensures_bindE (ensures_checkE _) fun root => ?_
    refine ensures_bindE ensures_getE fun s => ?_
    refine ensures_bindE (served_onMemory (emits_onBoard ?_)) fun old => ?_
    · exact (Tables.emits_unmapPage ..).mono fun _ => Builds.unwritten
    exact ensures_bindE served_dropCached fun _ => served_boardE (emits_note ..)

theorem served_describe (v : VirtAddr) : Ensures Served (describe v) := by
  unfold describe
  refine ensures_bind ensures_get fun s => ensures_bind ensures_get fun s => ?_
  refine ensures_bind (served_board (emits_note ..)) fun _ => ensures_bind ensures_get fun s => ?_
  split
  · exact ensures_bind (ensures_check _) fun p => served_board (emits_note ..)
  · exact ensures_pure _

/-- Whatever else is asked, it leaves the mode, the move and the registers alone. -/
theorem Call.served {call : Call} (h : call ≠ .boot) : Ensures Served call.run := by
  have hdone : ∀ {α : Type} {x : SpaceM α}, Ensures Served x →
      Ensures Served (do let _ ← x) := fun h => ensures_bind h fun _ => ensures_pure _
  cases call with
  | boot => exact absurd rfl h
  | allocate =>
    exact hdone (served_onMemory (Memory.emits_allocate.mono fun _ => Builds.unwritten))
  | release p =>
    exact hdone (served_onMemory ((Memory.emits_release p).mono fun _ => Builds.unwritten))
  | mapRange start stop p f => exact hdone (served_mapNamed ..)
  | mapDevice p size => exact hdone (served_mapDevice ..)
  | unmap v => exact hdone (served_unmap v)
  | describe v => exact served_describe v
  | summarize => exact served_onMemory Memory.emits_summarize
  | logLedger =>
    exact ensures_bind ensures_get fun s => served_board (Ledger.emits_logAll _)
  | conflicts =>
    exact hdone (ensures_bind ensures_get fun s => served_board (Ledger.emits_conflictsIn _))
  | processorResolves =>
    refine hdone (served_board ?_)
    exact emits_bind (emits_readRegister fun v r u h => by cases h) fun _ => emits_pure _

/-! ## Runs -/

variable {c : MemoryConfig} {l : ImageLayout} {b : Board} {w : Window} {s s' s'' : Space}
  {f : PerRegister Word} {mode : Mode}

theorem later_of_boot (hrun : Space.boot s = .ok mode s') : Later s s' :=
  Later.refl.step .boot (run_bind_ok hrun)

theorem Served.mode_eq (h : Served s s') : s'.mode = s.mode := by
  obtain ⟨m, ledger, rfl⟩ := h.kept
  rfl

theorem Served.layout_eq (h : Served s s') : s'.layout = s.layout := by
  obtain ⟨m, ledger, rfl⟩ := h.kept
  rfl

/-- A call that returns is the first boot, or leaves the mode, the move and the registers
alone. -/
theorem Call.cases_of_run {call : Call} (hrun : call.run s = .ok () s') :
    Served s s' ∨ s.mode = .unsettled ∧ ∃ mode, Space.boot s = .ok mode s' := by
  by_cases hcall : call = .boot
  · subst hcall
    obtain ⟨mode, s₁, hboot, hdone⟩ := exists_of_run_bind hrun
    cases hdone
    by_cases hmode : s.mode = .unsettled
    · exact Or.inr ⟨hmode, mode, hboot⟩
    · rw [boot_again hmode] at hboot
      cases hboot
      exact Or.inl ⟨⟨_, _, rfl⟩, rfl, rfl⟩
  · exact Or.inl ((Call.served hcall).of_ok hrun)

/-- Once the mode is settled, every call leaves it, the move and the registers alone. -/
theorem Later.served (h : Later s s') (hmode : s.mode ≠ .unsettled) : Served s s' := by
  induction h with
  | refl => exact Std.Refl.refl s
  | step call _ hrun ih =>
    rcases Call.cases_of_run hrun with hserved | ⟨hunsettled, -⟩
    · exact IsTrans.trans _ _ _ ih hserved
    · rw [ih.mode_eq] at hunsettled
      exact absurd hunsettled hmode

/-- What is recorded of the move stays as it is if nothing changes but memory and the ledger. -/
theorem Standing.served (h : Standing l f s) (hs : Served s s') : Standing l f s' := by
  have hregisters := hs.registers
  obtain ⟨m, ledger, rfl⟩ := hs.kept
  cases h with
  | waiting mode phase live roots abort registers =>
    exact .waiting mode phase live roots abort (hregisters.trans registers)
  | resolved roots mode phase live recorded abort registers =>
    exact .resolved roots mode phase live recorded abort (by rw [hregisters]; exact registers)
  | bypass a mode phase live roots abort early =>
    exact .bypass a mode phase live roots abort early

/-- As long as the mode is not settled, nothing is recorded and no register is written. -/
theorem Standing.of_unsettled (h : Standing l f s) (hmode : s.mode = .unsettled) :
    s.abort = none ∧ s.memory.board.cpu.registers = f := by
  cases h with
  | waiting mode phase live roots abort registers => exact ⟨abort, registers⟩
  | resolved roots mode => rw [hmode] at mode; cases mode
  | bypass a mode => rw [hmode] at mode; cases mode

/-- In every state of a run, what is recorded of the move is one of the three standings. The
layout and the processor stay the same at least until the mode is settled. -/
theorem Later.standing (hfaithful : b.cpu.behaviour.Faithful) (h : Later (fresh c l b w) s) :
    Standing l b.cpu.registers s ∧ (s.mode = .unsettled →
      s.layout = l ∧ s.memory.board.cpu.behaviour = b.cpu.behaviour) := by
  induction h with
  | refl => exact ⟨.waiting rfl rfl rfl rfl rfl rfl, fun _ => ⟨rfl, rfl⟩⟩
  | step call _ hrun ih =>
    obtain ⟨hstanding, hsame⟩ := ih
    rcases Call.cases_of_run hrun with hserved | ⟨hmode, mode, hboot⟩
    · refine ⟨hstanding.served hserved, fun hmode => ?_⟩
      obtain ⟨hlayout, hbehaviour⟩ := hsame (hserved.mode_eq.symm.trans hmode)
      exact ⟨hserved.layout_eq.trans hlayout, hserved.behaviour.trans hbehaviour⟩
    -- The first boot that returns finds what the address space began with.
    · obtain ⟨hlayout, hbehaviour⟩ := hsame hmode
      obtain ⟨habort, hregisters⟩ := hstanding.of_unsettled hmode
      obtain ⟨hsettled, hrecorded, hne⟩ :=
        standing_of_boot hmode habort (by rw [hbehaviour]; exact hfaithful) hboot
      rw [hlayout, hregisters] at hsettled
      refine ⟨hsettled, fun hunsettled => ?_⟩
      rw [hrecorded] at hunsettled
      exact absurd hunsettled hne

/-- A boot that returns gives the mode that it records. -/
theorem mode_of_boot (hfaithful : b.cpu.behaviour.Faithful) (h : Later (fresh c l b w) s)
    (hboot : boot s = .ok mode s') : s'.mode = mode ∧ mode ≠ .unsettled := by
  by_cases hmode : s.mode = .unsettled
  · obtain ⟨hstanding, hsame⟩ := h.standing hfaithful
    obtain ⟨-, hbehaviour⟩ := hsame hmode
    exact (standing_of_boot hmode (hstanding.of_unsettled hmode).1
      (by rw [hbehaviour]; exact hfaithful) hboot).2
  · rw [boot_again hmode] at hboot
    cases hboot
    exact ⟨rfl, hmode⟩

/-- On a board that gives what was stored, the records of the move agree with each other and with
the registers in every state of every run. The mode changes once at most, and after that no
register is written. A boot that follows another one gives the mode that is recorded, and does
nothing but log a line. -/
theorem Later.settled_once (hfaithful : b.cpu.behaviour.Faithful)
    (h : Later (fresh c l b w) s) :
    Standing l b.cpu.registers s ∧
      (∀ s', Later s s' → s.mode = .unsettled ∨
        s'.mode = s.mode ∧ s'.memory.board.cpu.registers = s.memory.board.cpu.registers) ∧
      ∀ mode s', boot s = .ok mode s' → s'.mode = mode ∧ mode ≠ .unsettled ∧
        ∀ s'', Later s' s'' → s''.mode = mode ∧ ∃ text,
          boot s'' = .ok mode (s''.withMemory (s''.memory.noted .debug .space text)) := by
  refine ⟨(h.standing hfaithful).1, fun s' hlater => ?_, fun mode s' hboot => ?_⟩
  · by_cases hmode : s.mode = .unsettled
    · exact Or.inl hmode
    · have hserved := hlater.served hmode
      exact Or.inr ⟨hserved.mode_eq, hserved.registers⟩
  · obtain ⟨hrecorded, hne⟩ := mode_of_boot hfaithful h hboot
    refine ⟨hrecorded, hne, fun s'' hlater => ?_⟩
    have hmode : s''.mode = mode :=
      (hlater.served (by rw [hrecorded]; exact hne)).mode_eq.trans hrecorded
    have hagain := boot_again (s := s'') (by rw [hmode]; exact hne)
    rw [hmode] at hagain
    exact ⟨hmode, _, hagain⟩

theorem settled_once_sample :
    sampleBoard.cpu.behaviour.Faithful ∧
      ∃ s, boot (fresh sampleConfig SampleBoard.layout sampleBoard .identity) = .ok .resolved s ∧
        Later (fresh sampleConfig SampleBoard.layout sampleBoard .identity) s ∧
        Standing SampleBoard.layout sampleBoard.cpu.registers s ∧ s.mode = .resolved ∧
        (∀ s', Later s s' → s'.mode = .resolved ∧
          s'.memory.board.cpu.registers = s.memory.board.cpu.registers) ∧
        ∃ text, boot s = .ok .resolved (s.withMemory (s.memory.noted .debug .space text)) := by
  obtain ⟨s, hrun⟩ := boot_resolves_sample
  have hfaithful := feasible_sample.faithful
  have hlater := later_of_boot hrun
  obtain ⟨-, -, hboot⟩ := Later.settled_once hfaithful Later.refl
  obtain ⟨hmode, -, hagain⟩ := hboot .resolved s hrun
  obtain ⟨hstanding, honce, -⟩ := Later.settled_once hfaithful hlater
  refine ⟨hfaithful, s, hrun, hlater, hstanding, hmode, fun s' hlater' => ?_, ?_⟩
  · rcases honce s' hlater' with hunsettled | hsame
    · rw [hmode] at hunsettled
      cases hunsettled
    · rw [hmode] at hsame
      exact hsame
  · exact (hagain s Later.refl).2

end Space

end HighHalf
