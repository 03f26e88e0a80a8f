import HighHalf.Proofs.Boot.Resolved

/-!
# Bases that are refused

A base of the tables that is not page aligned is refused, and the refusal names the register of
the first such base. Asked for the bases alone, the kernel looks at them before it touches
anything. In the whole sequence the same check stands behind the memory types and the walks: a
refusal comes when these two registers have been written, synchronized and read back, and it
leaves them so.

## Main definitions

* `Control.FirstMisaligned`: the refusal that two bases call for
* `Control.opening`: the events of the whole sequence before the bases are looked at

## Main results

* `Control.bases_refused`: what a refusal leaves behind, for the bases alone and for the sequence
-/

namespace HighHalf.Control

open Event Board

variable {b : Board} {low high : PhysAddr} {e : BaseError}

/-! ## The refusal -/

/-- The refusal that two bases call for: of the first that is not page aligned. -/
inductive FirstMisaligned (low high : PhysAddr) : BaseError → Prop where
  | low (hlow : low.num % 4096 ≠ 0) : FirstMisaligned low high (.misaligned .ttbr0 low)
  | high (hlow : low.num % 4096 = 0) (hhigh : high.num % 4096 ≠ 0) :
      FirstMisaligned low high (.misaligned .ttbr1 high)

theorem exists_firstMisaligned (h : ¬ (low.num % 4096 = 0 ∧ high.num % 4096 = 0)) :
    ∃ e, FirstMisaligned low high e := by
  by_cases hlow : low.num % 4096 = 0
  · exact ⟨_, .high hlow fun hhigh => h ⟨hlow, hhigh⟩⟩
  · exact ⟨_, .low hlow⟩

theorem misalignedBase?_eq (h : FirstMisaligned low high e) :
    misalignedBase? low high = some e := by
  unfold misalignedBase?
  cases h with
  | low hlow =>
    have : low.aligned = false := Bool.eq_false_iff.2 fun ha => hlow ((low.aligned_iff).1 ha)
    simp [this]
  | high hlow hhigh =>
    have : high.aligned = false := Bool.eq_false_iff.2 fun ha => hhigh ((high.aligned_iff).1 ha)
    simp [(low.aligned_iff).2 hlow, this]

/-- Asked for the bases alone, the kernel logs its refusal and does nothing else. -/
theorem run_setRoots_refused (h : misalignedBase? low high = some e) :
    ∃ b', (setRoots low high).run b = .ok (.error e) b' ∧ Happens b b' [] ∧ b'.cpu = b.cpu := by
  obtain ⟨r, base⟩ := e
  unfold setRoots
  rw [h]
  exact ⟨_, rfl, ⟨(List.append_nil _).symm, rfl, rfl, rfl⟩, rfl⟩

/-! ## What comes before the bases -/

/-- The events of a write that is synchronized and found right when it is read back. -/
def confirmed (r : Register) (v : Word) : List Event := [.write r v, .isb, .read r v]

theorem happens_writeVerified (hf : b.cpu.behaviour.Faithful) (r : Register) (v : Word) :
    ∃ b', writeVerified r v b = .ok () b' ∧ Happens b b' (confirmed r v) := by
  obtain ⟨b', hrun⟩ := run_writeVerified hf r v
  refine ⟨b', hrun, ?_⟩
  obtain ⟨_, b₁, hwrite, hrest₁⟩ := exists_of_run_bind hrun
  obtain ⟨_, b₂, hisb, hrest₂⟩ := exists_of_run_bind hrest₁
  obtain ⟨seen, b₃, hread, hrest₃⟩ := exists_of_run_bind hrest₂
  have h₁ := happens_of_write hwrite
  have h₂ : Happens b₁ b₂ [.isb] := by
    cases hisb
    exact Happens.one rfl rfl rfl rfl
  obtain ⟨hseen, h₃⟩ := happens_of_read hread
  have hbefore : Happens b b₂ _ := h₁.trans h₂
  have hv : seen = v := by
    rw [hseen, Processor.answer_of_faithful (by rwa [hbefore.behaviour]), hbefore.registers]
    exact PerRegister.get_set_self ..
  rw [hv] at h₃ hrest₃
  rw [if_neg (not_not_intro rfl)] at hrest₃
  cases hrest₃
  exact hbefore.trans h₃

theorem happens_programWalks (hf : b.cpu.behaviour.Faithful) (width : VaWidth) (walks : Walks) :
    ∃ b', programWalks width walks b = .ok () b' ∧
      Happens b b' (confirmed .tcr (walkControl width walks)) := by
  obtain ⟨b₁, hrun, h⟩ := happens_writeVerified hf .tcr (walkControl width walks)
  exact ⟨_, run_bind_ok hrun, h.trace, h.ram, h.registers, h.behaviour⟩

/-- The events of the whole sequence before the bases are looked at. -/
def opening (width : VaWidth) (walks : Walks) : List Event :=
  confirmed .mair attributes ++ confirmed .tcr (walkControl width walks)

/-- The registers once memory types and walks are programmed. -/
def opened (width : VaWidth) (walks : Walks) (f : PerRegister Word) : PerRegister Word :=
  (f.set .mair attributes).set .tcr (walkControl width walks)

theorem registers_opening (f : PerRegister Word) (width : VaWidth) (walks : Walks) :
    Event.registers f (opening width walks) = opened width walks f := rfl

theorem opened_eq_self_iff {f : PerRegister Word} {width : VaWidth} {walks : Walks} :
    opened width walks f = f ↔
      f.get .mair = attributes ∧ f.get .tcr = walkControl width walks := by
  constructor
  · intro h
    rw [← h]
    exact ⟨rfl, rfl⟩
  · rintro ⟨hmair, htcr⟩
    refine PerRegister.ext_get fun r => ?_
    cases r with
    | mair => exact hmair.symm
    | tcr => exact htcr.symm
    | _ => rfl

/-- The whole sequence refuses its bases when memory types and walks have been programmed. -/
theorem run_apply_refused (hf : b.cpu.behaviour.Faithful) (h : misalignedBase? low high = some e)
    (width : VaWidth) (walks : Walks) :
    ∃ b', (apply low high width walks).run b = .ok (.error e) b' ∧
      Happens b b' (opening width walks) := by
  obtain ⟨b₁, hrun₁, h₁⟩ := happens_writeVerified hf .mair attributes
  obtain ⟨b₂, hrun₂, h₂⟩ := happens_programWalks (b := b₁) (by rwa [h₁.behaviour]) width walks
  obtain ⟨b₃, hrun₃, h₃, -⟩ := run_setRoots_refused (b := b₂) h
  refine ⟨b₃, ?_, ?_⟩
  · exact (run_bindE_ok (run_lift hrun₁)).trans
      ((run_bindE_ok (run_lift hrun₂)).trans (run_bindE_fail hrun₃))
  · have hall : Happens b b₃ _ := h₁.trans (h₂.trans h₃)
    simpa only [opening, List.append_nil] using hall

/-! ## What a refusal leaves behind -/

/-- What is left of a board whose bases are refused with `e`. -/
structure Refused (b : Board) (low high : PhysAddr) (width : VaWidth) (e : BaseError) : Prop where
  /-- Asked for the bases alone: the processor is untouched, and nothing happens at all. -/
  alone : ∃ b', (setRoots low high).run b = .ok (.error e) b' ∧ Happens b b' [] ∧ b'.cpu = b.cpu
  /-- In the whole sequence, whichever halves are to be walked: memory types and walks have been
  written, each before a barrier of its own, and the other registers are as before. -/
  sequence : ∀ walks, ∃ b', (apply low high width walks).run b = .ok (.error e) b' ∧
    Happens b b' (opening width walks) ∧
    b'.cpu.registers = opened width walks b.cpu.registers
  /-- So the sequence leaves the registers alone exactly if both held their values already. -/
  unchanged_iff : ∀ walks r b', (apply low high width walks).run b = .ok r b' →
    (b'.cpu.registers = b.cpu.registers ↔ b.cpu.registers.get .mair = attributes ∧
      b.cpu.registers.get .tcr = walkControl width walks)

/-- Unless both bases are page aligned, the first that is not is refused. The request for the
bases leaves the registers alone; the whole sequence has programmed memory types and walks. -/
theorem bases_refused (hf : b.cpu.behaviour.Faithful)
    (hbases : ¬ (low.num % 4096 = 0 ∧ high.num % 4096 = 0)) (width : VaWidth) :
    ∃ e, FirstMisaligned low high e ∧ Refused b low high width e := by
  obtain ⟨e, he⟩ := exists_firstMisaligned hbases
  have hbad := misalignedBase?_eq he
  refine ⟨e, he, run_setRoots_refused hbad, fun walks => ?_, fun walks r b' hrun => ?_⟩
  · obtain ⟨b', hrun, h⟩ := run_apply_refused hf hbad width walks
    exact ⟨b', hrun, h, h.registers⟩
  · obtain ⟨b'', hrun', h⟩ := run_apply_refused hf hbad width walks
    cases hrun.symm.trans hrun'
    rw [h.registers, registers_opening]
    exact opened_eq_self_iff

/-- A low base in the middle of a page, on a board after its reset. -/
theorem bases_refused_sample :
    ∃ e, FirstMisaligned ⟨0x40000800⟩ ⟨0x40001000⟩ e ∧
      Refused Space.sampleBoard ⟨0x40000800⟩ ⟨0x40001000⟩ .bits48 e :=
  bases_refused Space.feasible_sample.faithful (by decide) .bits48

end HighHalf.Control
