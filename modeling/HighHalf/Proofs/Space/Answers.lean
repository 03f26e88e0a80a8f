import HighHalf.Proofs.Space.TreesKept

/-!
# What a request for a mapping does

Once addresses are being resolved, a request for a mapping or for the end of one is refused at
once or goes to the mapper. If the mapper may have changed a table, all cached resolutions are
dropped next, whatever it says. What was mapped is then recorded in the ledger; nothing else
changes but the log.

## Main definitions

* `Space.Answered`: what is left of a request once the mapper has answered
-/

namespace HighHalf

open Event Board

namespace Space

variable {s s' : Space} {name : String} {start stop v : VirtAddr} {p : PhysAddr} {f : Flags}

/-- After the mapper has left `m`, all cached resolutions are dropped. Nothing changes from then on
but the ledger, which becomes `ledger`, and the log. -/
structure Answered (s s' : Space) (m : Memory) (ledger : Ledger) : Prop where
  kept : ∃ b, s' = { s with memory := ⟨b, m.frames⟩, ledger := ledger }
  dropped : Happens m.board s'.memory.board Control.dropping

variable {m : Memory} {ledger : Ledger}

theorem Answered.frames (h : Answered s s' m ledger) : s'.memory.frames = m.frames := by
  obtain ⟨b, rfl⟩ := h.kept
  rfl

theorem Answered.ram (h : Answered s s' m ledger) : s'.memory.board.ram = m.board.ram := by
  rw [h.dropped.ram]
  rfl

theorem Answered.lookup (h : Answered s s' m ledger) (root : PhysAddr) (v : VirtAddr) :
    s'.memory.lookup root v = m.lookup root v := by
  simp only [Memory.lookup, h.ram, h.frames]

/-- Once the mapper has answered, the answer is passed on. -/
theorem run_mapBelow (name : String) {root : PhysAddr} {r : Except MapError Nat}
    (hmap : (Tables.mapRange root start stop p f).run s.memory = .ok r m) :
    ∃ s', (mapBelow root name start stop p f).run s = .ok r s' ∧
      ((∃ e, r = .error e ∧ Answered s s' m s.ledger) ∨
        ∃ n, r = .ok n ∧ Answered s s' m (s.ledger.after ⟨name, start, stop, p, f⟩)) := by
  obtain ⟨b₁, hdrop⟩ : ∃ b, Control.dropCached m.board = .ok () b := ⟨_, rfl⟩
  have hdropped := Control.happens_of_dropCached hdrop
  have hlift : (ExceptT.lift (onMemory (Tables.mapRange root start stop p f).run) :
      RequestM (Except MapError Nat)).run s = .ok (.ok r) (s.withMemory m) :=
    run_lift (run_onMemory (s := s) hmap)
  cases r with
  | error e =>
    refine ⟨_, (run_bindE_ok hlift).trans ?_, Or.inl ⟨e, rfl, ⟨b₁, rfl⟩, hdropped⟩⟩
    exact (run_bindE_ok (run_lift (run_board (s := s) hdrop))).trans
      (run_bindE_fail (run_refusedE e _))
  | ok n =>
    obtain ⟨b₂, hrecord, hnothing⟩ := run_record ⟨name, start, stop, p, f⟩
      (s.withMemory { m with board := b₁ })
    refine ⟨{ s with
        memory := (⟨b₂, m.frames⟩ : Memory).noted .debug .space
          s!"mapped {n} pages at {start} -> {p}"
        ledger := s.ledger.after ⟨name, start, stop, p, f⟩ }, (run_bindE_ok hlift).trans ?_, ?_⟩
    · refine (run_bindE_ok (run_lift (run_board (s := s) hdrop))).trans ?_
      exact (run_bindE_ok (run_checkE n _)).trans ((run_bindE_ok (run_lift hrecord)).trans rfl)
    · exact Or.inr ⟨n, rfl, ⟨_, rfl⟩, hdropped.trans ⟨hnothing.trace, hnothing.ram,
        hnothing.registers, hnothing.behaviour⟩⟩

/-- A request for a mapping is refused, or the mapper answers it. -/
theorem cases_of_mapNamed {r : Except MapError Nat} (hmode : s.mode = .resolved)
    (hrun : (mapNamed name start stop p f).run s = .ok r s') :
    (∃ e, s.rootFor start stop = .error e ∧ r = .error e ∧ s' = s) ∨
      ∃ root m, s.rootFor start stop = .ok root ∧
        (Tables.mapRange root start stop p f).run s.memory = .ok r m ∧
        ((∃ e, r = .error e ∧ Answered s s' m s.ledger) ∨
          ∃ n, r = .ok n ∧ Answered s s' m (s.ledger.after ⟨name, start, stop, p, f⟩)) := by
  cases hroot : s.rootFor start stop with
  | error e =>
    cases hrun.symm.trans (run_mapNamed_refused hmode hroot)
    exact Or.inl ⟨e, rfl, rfl, rfl⟩
  | ok root =>
    rw [run_mapNamed_of_root hmode hroot] at hrun
    -- The mapper has answered, as nothing comes back otherwise.
    obtain ⟨o, s₁, hlift, -⟩ := exists_of_run_bind (f := ExceptT.bindCont _) hrun
    obtain ⟨mapped, s₂, hmap, hdone⟩ := exists_of_run_bind hlift
    obtain ⟨m, hm, -⟩ := exists_of_onMemory hmap
    obtain ⟨s₃, hpassed, hanswer⟩ := run_mapBelow name hm
    cases hrun.symm.trans hpassed
    exact Or.inr ⟨root, m, rfl, hm, hanswer⟩

/-- A request to unmap a page is refused, or the mapper answers it. -/
theorem cases_of_unmap {r : Except MapError Unit} (hmode : s.mode = .resolved)
    (hrun : (unmap v).run s = .ok r s') :
    (∃ e, s.rootFor v.floor (v.floor.add pageSize) = .error e ∧ r = .error e ∧ s' = s) ∨
      ∃ root o m, s.rootFor v.floor (v.floor.add pageSize) = .ok root ∧
        (Memory.request (Tables.unmapPage s.memory.frames.window root v.floor)).run s.memory =
          .ok o m ∧
        ((∃ e, o = .error e ∧ r = .error e ∧ s' = s.withMemory m) ∨
          ∃ old, o = .ok old ∧ r = .ok () ∧ Answered s s' m s.ledger) := by
  cases hroot : s.rootFor v.floor (v.floor.add pageSize) with
  | error e =>
    cases hrun.symm.trans (run_unmap_refused hmode hroot)
    exact Or.inl ⟨e, rfl, rfl, rfl⟩
  | ok root =>
    rw [run_unmap_of_root hmode hroot] at hrun
    obtain ⟨o, s₁, hunmap, hrest⟩ := exists_of_run_bind (f := ExceptT.bindCont _) hrun
    obtain ⟨m, hm, rfl⟩ := exists_of_onMemory hunmap
    refine Or.inr ⟨root, o, m, rfl, hm, ?_⟩
    cases o with
    | error e =>
      cases hrest
      exact Or.inl ⟨e, rfl, rfl, rfl⟩
    | ok old =>
      obtain ⟨b₁, hdrop⟩ : ∃ b, Control.dropCached m.board = .ok () b := ⟨_, rfl⟩
      have hafter := (run_bindE_ok (run_lift (run_board (s := s) hdrop))).symm.trans hrest
      cases hafter
      refine Or.inr ⟨old, rfl, rfl, ⟨_, rfl⟩, ?_⟩
      have hdropped := Control.happens_of_dropCached hdrop
      exact ⟨hdropped.trace, hdropped.ram, hdropped.registers, hdropped.behaviour⟩

end Space

end HighHalf
