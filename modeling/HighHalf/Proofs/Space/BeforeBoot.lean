import HighHalf.Proofs.Boot.Resolved
import HighHalf.Proofs.Frames.Effects
import HighHalf.Proofs.Space.Lifetime

/-!
# Before the boot

Until the address space has been brought up it has neither frames nor trees. What is asked of it
then is refused or only looked at, so the boot finds it as it was at first: only the log is
longer, a register may have been read, and requests for frames may have failed.

## Main definitions

* `Space.Looked`: nothing is different but the log and what was read
* `Space.Waits`: requests for frames may have failed, too
-/

namespace HighHalf

open Event Board

variable {α : Type}

/-- A register was read. -/
def Event.IsRead : Event → Prop
  | read .. => True
  | _ => False

/-- Whatever happened between two boards was a read of a register. -/
def Board.Reads (b b' : Board) : Prop := ∃ es, Happens b b' es ∧ ∀ e ∈ es, e.IsRead

namespace Board

variable {b b' b'' : Board}

theorem Reads.refl (b : Board) : b.Reads b := ⟨[], Happens.refl b, nofun⟩

theorem Reads.trans (h : b.Reads b') (h' : b'.Reads b'') : b.Reads b'' := by
  obtain ⟨es, hes, hall⟩ := h
  obtain ⟨es', hes', hall'⟩ := h'
  exact ⟨es ++ es', hes.trans hes', List.forall_mem_append.2 ⟨hall, hall'⟩⟩

/-- A line of the log is no event. -/
theorem reads_noted (m : Memory) (level : Level) (component : Component) (text : String) :
    m.board.Reads (m.noted level component text).board :=
  ⟨[], ⟨(List.append_nil _).symm, rfl, rfl, rfl⟩, nofun⟩

theorem Reads.ram (h : b.Reads b') : b'.ram = b.ram := by
  obtain ⟨es, hes, hall⟩ := h
  exact hes.ram_of_still fun e he s hs => by simpa [hs, IsRead] using hall e he

theorem Reads.behaviour (h : b.Reads b') : b'.cpu.behaviour = b.cpu.behaviour := by
  obtain ⟨es, hes, -⟩ := h
  exact hes.behaviour

end Board

namespace Space

variable {c : MemoryConfig} {l : ImageLayout} {s s' : Space} {b : Board} {w : Window} {n : Nat}
  {call : Call}

/-! ## Calls that only look -/

/-- Nothing is different but the log and what was read. -/
structure Looked (s s' : Space) : Prop where
  kept : ∃ b, s' = s.withMemory ⟨b, s.memory.frames⟩
  reads : s.memory.board.Reads s'.memory.board

instance : Std.Refl Looked := ⟨fun s => ⟨⟨s.memory.board, rfl⟩, Reads.refl _⟩⟩

instance : IsTrans Space Looked := by
  refine ⟨fun s s' s'' h h' => ?_⟩
  obtain ⟨b, rfl⟩ := h.kept
  obtain ⟨b', rfl⟩ := h'.kept
  exact ⟨⟨b', rfl⟩, h.reads.trans h'.reads⟩

theorem looked_noted (s : Space) (level : Level) (component : Component) (text : String) :
    Looked s (s.withMemory (s.memory.noted level component text)) :=
  ⟨⟨_, rfl⟩, reads_noted ..⟩

theorem looked_board {x : BoardM α} (h : Emits IsRead x) :
    Ensures Looked (liftM x : SpaceM α) := by
  refine ⟨fun hrun => ?_⟩
  obtain ⟨b, hb, rfl⟩ := exists_of_board hrun
  exact ⟨⟨b, rfl⟩, h.of_ok hb⟩

theorem looked_summarize : Ensures Looked summarize := by
  have hboard : ∀ m, ∃ b, Memory.summarize m = .ok () ⟨b, m.frames⟩ := by
    intro m
    unfold Memory.summarize
    rw [run_bind_ok (run_get m)]
    cases m.frames.ready with
    | false => exact ⟨_, rfl⟩
    | true => cases m.frames.recent.toList with
      | nil => exact ⟨_, rfl⟩
      | cons e es => exact ⟨_, rfl⟩
  refine ⟨fun {s u s'} hrun => ?_⟩
  obtain ⟨m, hm, rfl⟩ := exists_of_onMemory hrun
  obtain ⟨b, hb⟩ := hboard s.memory
  rw [hm] at hb
  cases hb
  exact ⟨⟨b, rfl⟩, Memory.emits_summarize.of_ok hm⟩

theorem looked_describe (v : VirtAddr) : Ensures Looked (describe v) := by
  unfold describe
  refine ensures_bind ensures_get fun s => ensures_bind ensures_get fun s => ?_
  refine ensures_bind (looked_board (emits_note ..)) fun _ => ensures_bind ensures_get fun s => ?_
  split
  · exact ensures_bind (ensures_check _) fun p => looked_board (emits_note ..)
  · exact ensures_pure _

/-- What only looks at the address space. -/
def Call.Looks : Call → Prop
  | .describe _ | .summarize | .logLedger | .conflicts | .processorResolves => True
  | _ => False

theorem Call.looked (h : call.Looks) : Ensures Looked call.run := by
  have hdone : ∀ {α : Type} {x : SpaceM α}, Ensures Looked x → Ensures Looked (do let _ ← x) :=
    fun h => ensures_bind h fun _ => ensures_pure _
  cases call with
  | describe v => exact looked_describe v
  | summarize => exact looked_summarize
  | logLedger => exact ensures_bind ensures_get fun s => looked_board (Ledger.emits_logAll _)
  | conflicts =>
    exact hdone (ensures_bind ensures_get fun s => looked_board (Ledger.emits_conflictsIn _))
  | processorResolves =>
    refine hdone (looked_board ?_)
    exact emits_bind (emits_readRegister fun _ => trivial) fun _ => emits_pure _
  | _ => exact absurd h id

/-! ## Calls before the boot -/

/-- Nothing is different but the log, what was read, and how many requests for frames failed. -/
structure Waits (s s' : Space) : Prop where
  kept : ∃ b n, s' = s.withMemory ⟨b, { s.memory.frames with
    stats := { s.memory.frames.stats with failed := n } }⟩
  reads : s.memory.board.Reads s'.memory.board

theorem Looked.waits (h : Looked s s') : Waits s s' := by
  obtain ⟨b, rfl⟩ := h.kept
  exact ⟨⟨b, _, rfl⟩, h.reads⟩

/-- Without frames no frame is granted. -/
theorem run_allocate_unready (h : s.memory.frames.ready = false) :
    ∃ s', allocate s = .ok none s' ∧ Waits s s' := by
  have hclaim : Memory.claim s.memory = .ok none s.memory := by
    simp [Memory.claim, run_bind, h]
  obtain ⟨text, hrun⟩ := Memory.run_allocate_none hclaim
  exact ⟨_, run_onMemory (s := s) hrun, ⟨_, _, rfl⟩,
    reads_noted ⟨s.memory.board, s.memory.frames.shortOf⟩ ..⟩

/-- Without frames no frame is taken back. -/
theorem run_release_unready (h : s.memory.frames.ready = false) (p : PhysAddr) :
    ∃ s', release p s = .ok (.error .notReady) s' ∧ Waits s s' := by
  have hrefusal : s.memory.refusal p = some .notReady := by simp [Memory.refusal, h]
  exact ⟨_, run_onMemory (s := s) (Memory.run_release_refused hrefusal), (looked_noted ..).waits⟩

/-- Before the boot no range is mapped. -/
theorem run_mapNamed_unsettled (h : s.mode = .unsettled) (name : String) (start stop : VirtAddr)
    (p : PhysAddr) (f : Flags) :
    (mapNamed name start stop p f).run s = .ok (.error .notReady) s := by
  unfold mapNamed
  rw [run_bindE_ok (run_getE s), h]
  rfl

theorem run_mapDevice_unsettled (h : s.mode = .unsettled) (p : PhysAddr) (size : Word) :
    ∃ e, (mapDevice p size).run s = .ok (.error e) s := by
  unfold mapDevice
  cases devicePages p size with
  | none => exact ⟨.badRange, rfl⟩
  | some r => exact ⟨.notReady, (run_bindE_ok (run_getE s)).trans (run_mapNamed_unsettled h ..)⟩

theorem run_unmap_unsettled (h : s.mode = .unsettled) (v : VirtAddr) :
    (unmap v).run s = .ok (.error .notReady) s := by
  unfold unmap
  rw [run_bindE_ok (run_getE s), h]
  rfl

/-- Before the boot every other call leaves the address space waiting for it. -/
theorem Call.waits (hcall : call ≠ .boot) (hmode : s.mode = .unsettled)
    (hready : s.memory.frames.ready = false) (hrun : call.run s = .ok () s') : Waits s s' := by
  have hstill : Waits s s := Looked.waits (Std.Refl.refl s)
  by_cases hlooks : call.Looks
  · exact ((Call.looked hlooks).of_ok hrun).waits
  · cases call with
    | boot => exact absurd rfl hcall
    | allocate =>
      obtain ⟨s₁, hnone, hwaits⟩ := run_allocate_unready hready
      rw [Call.run, run_bind_ok hnone] at hrun
      cases hrun
      exact hwaits
    | release p =>
      obtain ⟨s₁, hrefused, hwaits⟩ := run_release_unready hready p
      rw [Call.run, run_bind_ok hrefused] at hrun
      cases hrun
      exact hwaits
    | mapRange start stop p f =>
      rw [Call.run, Space.mapRange, run_bind_ok (run_mapNamed_unsettled hmode ..)] at hrun
      cases hrun
      exact hstill
    | mapDevice p size =>
      obtain ⟨e, hrefused⟩ := run_mapDevice_unsettled hmode p size
      rw [Call.run, run_bind_ok hrefused] at hrun
      cases hrun
      exact hstill
    | unmap v =>
      rw [Call.run, run_bind_ok (run_unmap_unsettled hmode v)] at hrun
      cases hrun
      exact hstill
    | _ => exact absurd trivial hlooks

/-! ## The two parts of a run -/

theorem Waits.asked (h : Waits (asked c l b w n) s) :
    ∃ b' k, s = Space.asked c l b' w k ∧ b.Reads b' := by
  have hreads := h.reads
  obtain ⟨b', k, rfl⟩ := h.kept
  exact ⟨b', k, rfl, hreads⟩

/-- A call before the boot is the boot, or leaves the address space waiting for it. -/
theorem Call.cases_of_asked (hrun : call.run (asked c l b w n) = .ok () s) :
    (∃ b' k, s = asked c l b' w k ∧ b.Reads b') ∨
      ∃ mode, Space.boot (asked c l b w n) = .ok mode s := by
  by_cases hcall : call = .boot
  · subst hcall
    obtain ⟨mode, s₁, hboot, hdone⟩ := exists_of_run_bind hrun
    cases hdone
    exact Or.inr ⟨mode, hboot⟩
  · exact Or.inl (Call.waits hcall rfl rfl hrun).asked

/-- A run is still before the boot, or has a boot in it that returned. -/
theorem Later.phases (h : Later (fresh c l b w) s) :
    (∃ b' n, s = asked c l b' w n ∧ b.Reads b') ∨
      ∃ b' n mode s₁, b.Reads b' ∧ boot (asked c l b' w n) = .ok mode s₁ ∧ Later s₁ s := by
  induction h with
  | refl => exact Or.inl ⟨b, 0, rfl, Reads.refl b⟩
  | step call _ hrun ih =>
    rcases ih with ⟨b', n, rfl, hreads⟩ | ⟨b', n, mode, s₁, hreads, hboot, hlater⟩
    · rcases Call.cases_of_asked hrun with ⟨b'', k, rfl, hreads'⟩ | ⟨mode, hboot⟩
      · exact Or.inl ⟨b'', k, rfl, hreads.trans hreads'⟩
      · exact Or.inr ⟨b', n, mode, _, hreads, hboot, Later.refl⟩
    · exact Or.inr ⟨b', n, mode, s₁, hreads, hboot, hlater.step call hrun⟩

end Space

end HighHalf
