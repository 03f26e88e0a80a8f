import HighHalf.Proofs.Transition.Switch

/-!
# Processors whose reads give what was stored

Every write of a register is read back, and a register that does not hold what was written stops
the kernel. Where reads give what was stored, this never happens: the switch is carried out once
the checks have been passed.
-/

namespace HighHalf

open Event Board

variable {b b' : Board} {r : Register} {v d : Word} {low high : PhysAddr}

/-- A quiet step leaves the registers alone. -/
theorem Board.registers_of_emits {α : Type} {x : BoardM α} {a : α} (h : Emits Quiet x)
    (hrun : x b = .ok a b') :
    b'.cpu.registers = b.cpu.registers ∧ b'.cpu.behaviour = b.cpu.behaviour := by
  obtain ⟨q, hq, hquiet⟩ := h.of_ok hrun
  exact ⟨hq.registers.trans (registers_of_quiet hquiet), hq.behaviour⟩

theorem Processor.answer_of_faithful {p : Processor} (h : p.behaviour.Faithful) (r : Register) :
    p.answer r = p.registers.get r :=
  h ..

namespace Control

/-! ## Writing the registers -/

/-- Reading a register back that holds what was written. -/
theorem run_verify (h : b.cpu.answer r = v) (mask : Word) :
    ∃ b', verify r v mask b = .ok () b' := by
  obtain ⟨b₁, hread⟩ : ∃ b₁, readRegister r b = .ok v b₁ := ⟨_, congrArg (EStateM.Result.ok · _) h⟩
  refine ⟨b₁, ?_⟩
  rw [verify, run_bind_ok hread, if_neg (not_not_intro rfl)]
  rfl

theorem run_writeVerified (h : b.cpu.behaviour.Faithful) (r : Register) (v : Word) :
    ∃ b', writeVerified r v b = .ok () b' := by
  obtain ⟨b₁, hwrite⟩ : ∃ b₁, write r v b = .ok () b₁ := ⟨_, rfl⟩
  obtain ⟨b₂, hisb⟩ : ∃ b₂, Board.isb b₁ = .ok () b₂ := ⟨_, rfl⟩
  have h₁ := happens_of_write hwrite
  obtain ⟨hregisters, hbehaviour⟩ := registers_of_emits emits_isb hisb
  have hanswer : b₂.cpu.answer r = v := by
    rw [Processor.answer_of_faithful (by rwa [hbehaviour, h₁.behaviour]), hregisters, h₁.registers,
      registers_write, registers_nil, PerRegister.get_set_self]
  obtain ⟨b', hverify⟩ := run_verify hanswer allBits
  exact ⟨b', (run_bind_ok hwrite).trans ((run_bind_ok hisb).trans hverify)⟩

theorem run_programWalks (h : b.cpu.behaviour.Faithful) (width : VaWidth) (walks : Walks) :
    ∃ b', programWalks width walks b = .ok () b' := by
  obtain ⟨b₁, hwrite⟩ := run_writeVerified h .tcr (walkControl width walks)
  exact ⟨_, run_bind_ok hwrite⟩

/-- Aligned bases are not refused. -/
theorem run_setRoots (h : b.cpu.behaviour.Faithful) (hlow : low.aligned = true)
    (hhigh : high.aligned = true) : ∃ b', (setRoots low high).run b = .ok (.ok ()) b' := by
  obtain ⟨b₁, hrun₁⟩ : ∃ b₁, write .ttbr0 low.val b = .ok () b₁ := ⟨_, rfl⟩
  obtain ⟨b₂, hrun₂⟩ : ∃ b₂, write .ttbr1 high.val b₁ = .ok () b₂ := ⟨_, rfl⟩
  obtain ⟨b₃, hrun₃⟩ : ∃ b₃, Board.isb b₂ = .ok () b₃ := ⟨_, rfl⟩
  have hwrites : Happens b b₂ _ := (happens_of_write hrun₁).trans (happens_of_write hrun₂)
  obtain ⟨hregisters₃, hbehaviour₃⟩ := registers_of_emits emits_isb hrun₃
  -- Both bases have been written before either is read back.
  have hanswer₃ : ∀ g, b₃.cpu.answer g =
      ((b.cpu.registers.set .ttbr0 low.val).set .ttbr1 high.val).get g := by
    intro g
    rw [Processor.answer_of_faithful (by rwa [hbehaviour₃, hwrites.behaviour]), hregisters₃,
      hwrites.registers]
    rfl
  obtain ⟨b₄, hrun₄⟩ := run_verify (hanswer₃ .ttbr0) allBits
  obtain ⟨hregisters₄, hbehaviour₄⟩ := registers_of_emits (emits_verify ..) hrun₄
  have hanswer₄ : b₄.cpu.answer .ttbr1 =
      ((b.cpu.registers.set .ttbr0 low.val).set .ttbr1 high.val).get .ttbr1 := by
    rw [Processor.answer_of_faithful (by rwa [hbehaviour₄, hbehaviour₃, hwrites.behaviour]),
      hregisters₄, hregisters₃, hwrites.registers]
    rfl
  obtain ⟨b₅, hrun₅⟩ := run_verify hanswer₄ allBits
  refine ⟨b₅, ?_⟩
  have hgood : misalignedBase? low high = none := by
    rw [misalignedBase?, hlow, hhigh]
    rfl
  unfold setRoots
  rw [hgood]
  exact (run_bindE_ok (run_lift hrun₁)).trans ((run_bindE_ok (run_lift hrun₂)).trans
    ((run_bindE_ok (run_lift hrun₃)).trans ((run_bindE_ok (run_lift hrun₄)).trans
      (run_lift hrun₅))))

theorem run_enable (h : b.cpu.behaviour.Faithful) : ∃ b', enable b = .ok () b' := by
  obtain ⟨v, b₁, hread⟩ : ∃ v b₁, readRegister .sctlr b = .ok v b₁ := ⟨_, _, rfl⟩
  obtain ⟨b₂, hwrite⟩ : ∃ b₂, write .sctlr (v ||| resolving) b₁ = .ok () b₂ := ⟨_, rfl⟩
  obtain ⟨b₃, hisb⟩ : ∃ b₃, Board.isb b₂ = .ok () b₃ := ⟨_, rfl⟩
  have h₁ := (happens_of_read hread).2
  have h₂ := happens_of_write hwrite
  obtain ⟨hregisters, hbehaviour⟩ := registers_of_emits emits_isb hisb
  have hanswer : b₃.cpu.answer .sctlr = v ||| resolving := by
    rw [Processor.answer_of_faithful (by rwa [hbehaviour, h₂.behaviour, h₁.behaviour]), hregisters,
      h₂.registers, registers_write, registers_nil, PerRegister.get_set_self]
  obtain ⟨b', hverify⟩ := run_verify hanswer resolving
  exact ⟨b', (run_bind_ok hread).trans ((run_bind_ok hwrite).trans ((run_bind_ok hisb).trans
    hverify))⟩

/-- The whole sequence is carried out for aligned roots. -/
theorem run_apply (h : b.cpu.behaviour.Faithful) (hlow : low.aligned = true)
    (hhigh : high.aligned = true) (width : VaWidth) (walks : Walks) :
    ∃ b', (apply low high width walks).run b = .ok (.ok ()) b' := by
  obtain ⟨b₁, hrun₁⟩ := run_writeVerified h .mair attributes
  obtain ⟨q₁, -, h₁⟩ := exists_of_writeVerified hrun₁
  have hf₁ : b₁.cpu.behaviour.Faithful := by rwa [h₁.behaviour]
  obtain ⟨b₂, hrun₂⟩ := run_programWalks hf₁ width walks
  obtain ⟨q₂, -, h₂⟩ := exists_of_programWalks hrun₂
  have hf₂ : b₂.cpu.behaviour.Faithful := by rwa [h₂.behaviour]
  obtain ⟨b₃, hrun₃⟩ := run_setRoots hf₂ hlow hhigh
  obtain ⟨q₃, -, h₃⟩ := exists_of_setRoots hrun₃
  have hf₃ : b₃.cpu.behaviour.Faithful := by rwa [h₃.behaviour]
  obtain ⟨b₄, hrun₄⟩ : ∃ b₄, Board.dsb .system b₃ = .ok () b₄ := ⟨_, rfl⟩
  obtain ⟨b₅, hrun₅⟩ : ∃ b₅, Board.isb b₄ = .ok () b₅ := ⟨_, rfl⟩
  obtain ⟨b₆, hrun₆⟩ : ∃ b₆, dropCached b₅ = .ok () b₆ := ⟨_, rfl⟩
  have hf₆ : b₆.cpu.behaviour.Faithful := by
    rw [(happens_of_dropCached hrun₆).behaviour, (registers_of_emits emits_isb hrun₅).2,
      (registers_of_emits (emits_dsb _) hrun₄).2]
    exact hf₃
  obtain ⟨b₇, hrun₇⟩ := run_enable hf₆
  refine ⟨_, (run_bindE_ok (run_lift hrun₁)).trans ((run_bindE_ok (run_lift hrun₂)).trans
    ((run_bindE_ok hrun₃).trans ((run_bindE_ok (run_lift hrun₄)).trans
      ((run_bindE_ok (run_lift hrun₅)).trans ((run_bindE_ok (run_lift hrun₆)).trans
        ((run_bindE_ok (run_lift hrun₇)).trans rfl))))))⟩

theorem run_switchWalks (h : b.cpu.behaviour.Faithful) (walks : Walks) :
    ∃ b', switchWalks walks b = .ok () b' := by
  obtain ⟨v, b₁, hread⟩ : ∃ v b₁, readRegister .tcr b = .ok v b₁ := ⟨_, _, rfl⟩
  have h₁ := (happens_of_read hread).2
  obtain ⟨b', hwrite⟩ :=
    run_writeVerified (b := b₁) (by rwa [h₁.behaviour]) .tcr (withWalks v walks)
  exact ⟨b', (run_bind_ok hread).trans hwrite⟩

end Control

namespace Transition

variable {c : MemoryConfig} {l : ImageLayout} {roots : Roots} {s : Space} {w : Window}

/-! ## The two parts of the switch -/

/-- Address resolution is turned on for aligned roots. -/
theorem run_enable (h : s.memory.board.cpu.behaviour.Faithful) (hlow : roots.low.aligned = true)
    (hhigh : roots.high.aligned = true) :
    ∃ s', (enable c l roots).run s = .ok (.ok ()) s' := by
  obtain ⟨b₁, hrun₁⟩ := Control.run_writeVerified h .vbar l.vectors.val
  obtain ⟨q₁, -, h₁⟩ := Control.exists_of_writeVerified hrun₁
  have hf₁ : b₁.cpu.behaviour.Faithful := by rwa [h₁.behaviour]
  obtain ⟨b₂, hrun₂⟩ := Control.run_apply hf₁ hlow hhigh c.width .dual
  obtain ⟨b₃, hrun₃, -⟩ := run_advance (p := .dualMapped) (q := .enabledLow) rfl b₂
  refine ⟨s.withMemory ⟨b₃, s.memory.frames⟩, ?_⟩
  refine (run_bindE_ok (run_lift (Space.run_board (s := s) (m := s.memory) hrun₁))).trans ?_
  refine (run_bindE_ok (run_lift (Space.run_onMemory (s := s)
    (Memory.run_onBoard (m := ⟨b₁, s.memory.frames⟩) hrun₂)))).trans ?_
  exact run_lift (Space.run_board (s := s) (m := ⟨b₂, s.memory.frames⟩) hrun₃)

theorem run_arrive (h : b.cpu.answer .sctlr &&& Control.resolving = Control.resolving)
    (uart : Word) : ∃ b', arrive uart b = .ok () b' := by
  obtain ⟨v, b₁, hread⟩ : ∃ v b₁, readRegister .sctlr b = .ok v b₁ := ⟨_, _, rfl⟩
  obtain ⟨rfl, -⟩ := Control.happens_of_read hread
  obtain ⟨ready, b₂, hprobe⟩ : ∃ ready b₂,
    probe uart "[mmu] high UART alias live\n" b₁ = .ok ready b₂ := ⟨_, _, rfl⟩
  unfold arrive
  rw [run_bind_ok hread, if_neg (not_not_intro h)]
  cases ready with
  | true => exact ⟨_, run_bind_ok hprobe⟩
  | false => exact ⟨_, run_bind_ok hprobe⟩

/-- Execution arrives if addresses are being resolved. -/
theorem run_moveExecution
    (h : b.cpu.answer .sctlr &&& Control.resolving = Control.resolving) :
    ∃ d b', moveExecution c b = .ok d b' := by
  obtain ⟨d, b₁, hmove⟩ : ∃ d b₁, relocate c.highBase b = .ok d b₁ := ⟨_, _, rfl⟩
  have hanswer : b₁.cpu.answer .sctlr &&& Control.resolving = Control.resolving := by
    cases hmove
    exact h
  obtain ⟨b₂, harrive⟩ := run_arrive hanswer (c.uart.val ||| c.highBase)
  obtain ⟨b₃, hadvance, -⟩ := run_advance (p := .enabledLow) (q := .arrived) rfl b₂
  exact ⟨d, b₃, (run_bind_ok hmove).trans ((run_bind_ok harrive).trans (run_bind_ok hadvance))⟩

theorem run_followHeld (d : Word) (names : List String) (b : Board) :
    ∃ b', followHeld d names b = .ok () b' := by
  induction names generalizing b with
  | nil => exact ⟨b, rfl⟩
  | cons name rest ih =>
    obtain ⟨b₁, hfollow⟩ : ∃ b₁, follow (.object name) d b = .ok () b₁ := ⟨_, rfl⟩
    obtain ⟨b', hrest⟩ := ih b₁
    exact ⟨b', (run_bind_ok hfollow).trans hrest⟩

theorem run_followNames (d : Word) (records : List Mapping) (b : Board) :
    ∃ b', followNames d records b = .ok () b' := by
  induction records generalizing b with
  | nil => exact ⟨b, rfl⟩
  | cons n rest ih =>
    unfold followNames
    by_cases hname : n.name ≠ ""
    · rw [if_pos hname]
      obtain ⟨b₁, hfollow⟩ : ∃ b₁, follow (.text n.name) d b = .ok () b₁ := ⟨_, rfl⟩
      obtain ⟨b', hrest⟩ := ih b₁
      exact ⟨b', (run_bind_ok hfollow).trans hrest⟩
    · rw [if_neg hname]
      exact ih b

theorem run_moveVectors (h : b.cpu.behaviour.Faithful) :
    ∃ b', moveVectors c l b = .ok () b' := by
  obtain ⟨b₁, hvectors⟩ := Control.run_writeVerified h .vbar (l.vectors.val ||| c.highBase)
  obtain ⟨b₂, hadvance, -⟩ := run_advance (p := .arrived) (q := .vectorsMoved) rfl b₁
  exact ⟨b₂, (run_bind_ok hvectors).trans hadvance⟩

/-- What still points low is moved if the relocation table was accepted and is apart from the
data. -/
theorem run_collapse (hf : s.memory.board.cpu.behaviour.Faithful) (h : Movable c l s.memory)
    (htable : (relocations l).Apart s.memory.board.ram l.data)
    (hd : d = s.memory.board.cpu.behaviour.moved highBase) :
    ∃ s', collapse c l d s = .ok () s' := by
  obtain ⟨there, b₁, halias⟩ : ∃ there b₁,
    aliasOfRam (s.memory.frames.window.reach c.memory.start) d s.memory.board = .ok there b₁ :=
    ⟨_, _, rfl⟩
  obtain ⟨m₂, hshift⟩ : ∃ m₂, Memory.shiftWindow
      (there - s.memory.frames.window.reach c.memory.start) ⟨b₁, s.memory.frames⟩ = .ok () m₂ :=
    ⟨_, rfl⟩
  obtain ⟨hframes₂, h₂⟩ := exists_of_land (m := s.memory) hd halias hshift
  obtain ⟨b₃, hrebase, h₃⟩ := h.run_rebase htable h₂.ram
  have hwindow : m₂.frames.window =
      landing c s.memory.frames.window s.memory.board.cpu.behaviour := by rw [hframes₂]
  rw [← hwindow, ← hd] at hrebase
  obtain ⟨b₄, hnames⟩ := run_followNames d s.ledger.records.toList b₃
  obtain ⟨-, hbehaviour₄⟩ := registers_of_emits (emits_followNames (fun _ => trivial) _) hnames
  obtain ⟨b₅, hwalks⟩ := Control.run_switchWalks (b := b₄)
    (by rwa [hbehaviour₄, h₃.behaviour, h₂.behaviour]) .highOnly
  obtain ⟨b₆, hdrop⟩ : ∃ b₆, Control.dropCached b₅ = .ok () b₆ := ⟨_, rfl⟩
  obtain ⟨b₇, hadvance, -⟩ := run_advance (p := .vectorsMoved) (q := .highOnly) rfl b₆
  refine ⟨{ s with live := .highOnly }.withMemory ⟨b₇, m₂.frames⟩, ?_⟩
  refine (run_bind_ok (run_get s)).trans ?_
  refine (run_bind_ok (Space.run_board (s := s) (m := s.memory) halias)).trans ?_
  refine (run_bind_ok (Space.run_onMemory (s := s) hshift)).trans ?_
  refine (run_bind_ok (run_get _)).trans ?_
  refine (run_bind_ok (Space.run_board (s := s) (m := m₂) hrebase)).trans ?_
  refine (run_bind_ok (run_get _)).trans ?_
  refine (run_bind_ok (Space.run_board (s := s) (m := ⟨b₃, m₂.frames⟩) hnames)).trans ?_
  refine (run_bind_ok (Space.run_board (s := s) (m := ⟨b₄, m₂.frames⟩) hwalks)).trans ?_
  refine (run_bind_ok (Space.run_board (s := s) (m := ⟨b₅, m₂.frames⟩) hdrop)).trans ?_
  exact Space.run_board (s := { s with live := .highOnly }) (m := ⟨b₆, m₂.frames⟩) hadvance

/-- The second part of the move is carried out once addresses are being resolved. -/
theorem run_complete (hf : s.memory.board.cpu.behaviour.Faithful)
    (hon : s.memory.board.cpu.registers.get .sctlr &&& Control.resolving = Control.resolving)
    (h : Movable c l s.memory) (htable : (relocations l).Apart s.memory.board.ram l.data)
    (hhigh : c.highBase = highBase) : ∃ d s', complete c l s = .ok d s' := by
  obtain ⟨d, b₁, hmove⟩ := run_moveExecution (c := c) (b := s.memory.board)
    (by rwa [Processor.answer_of_faithful hf])
  obtain ⟨-, _, -, h₁⟩ := exists_of_moveExecution hmove
  obtain ⟨b₂, hheld⟩ := run_followHeld d held b₁
  obtain ⟨-, hbehaviour₂⟩ := registers_of_emits (emits_followHeld (fun _ => trivial) _) hheld
  obtain ⟨b₃, hvectors⟩ := run_moveVectors (c := c) (l := l) (b := b₂)
    (by rwa [hbehaviour₂, h₁.behaviour])
  obtain ⟨hd, q₁, q₂, hquiet, hbefore⟩ := exists_of_hop hhigh hmove hheld hvectors
  have hbehaviour := hbefore.behaviour
  have hram := ram_of_hop hbefore hquiet
  have hmovable : Movable c l (s.withMemory ⟨b₃, s.memory.frames⟩).memory :=
    h.congr rfl hram hbehaviour
  have htable' : (relocations l).Apart b₃.ram l.data := by rwa [hram]
  rw [← hbehaviour] at hf hd
  obtain ⟨s₄, hcollapse⟩ := run_collapse hf hmovable htable' hd
  refine ⟨d, s₄, ?_⟩
  refine (run_bind_ok (Space.run_board (s := s) (m := s.memory) hmove)).trans ?_
  refine (run_bind_ok (Space.run_board (s := s) (m := ⟨b₁, s.memory.frames⟩) hheld)).trans ?_
  refine (run_bind_ok (Space.run_board (s := s) (m := ⟨b₂, s.memory.frames⟩) hvectors)).trans ?_
  exact run_bind_ok hcollapse

end Transition

end HighHalf
