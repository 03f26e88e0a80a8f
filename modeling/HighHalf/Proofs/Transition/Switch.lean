import HighHalf.Proofs.Relocation.Pointers
import HighHalf.Proofs.Transition.Checks

/-!
# The events of the switch

From the moment the vectors are set to their physical address, the kernel writes registers in a
fixed order, moves execution, and applies the relocation table. Everything else that it does is
quiet: it reads registers, waits at barriers, looks things up and talks to the console. This
module gives the events of the two parts of the switch, with the quiet ones left open.

## Main definitions

* `Event.Quiet`: neither a store nor a write of a register nor a move of execution
* `Transition.Arms`: the events that lead to the one that turns address resolution on
* `Transition.landing`: the window through which RAM is reached after the move
-/

namespace HighHalf

namespace Event

/-- The event neither stores, nor writes a register, nor moves execution. -/
def Quiet : Event → Prop
  | store _ | write .. | relocate _ => False
  | _ => True

variable {f : PerRegister Word} {r : Ram} {q : List Event} {g : Register} {v : Word}

/-- The event is no store. -/
def Still (e : Event) : Prop := ∀ s, e ≠ .store s

theorem Quiet.still {e : Event} (h : e.Quiet) : e.Still := by
  rintro s rfl
  exact h

theorem not_mem_of_quiet {e : Event} (h : ∀ e ∈ q, e.Quiet) (he : ¬ e.Quiet) : e ∉ q :=
  fun hmem => he (h e hmem)

theorem registers_of_quiet (h : ∀ e ∈ q, e.Quiet) : registers f q = f :=
  registers_of_unwritten fun _ _ => not_mem_of_quiet h id

end Event

theorem Board.Happens.ram_of_still {b b' : Board} {es : List Event} (h : Happens b b' es)
    (hall : ∀ e ∈ es, e.Still) : b'.ram = b.ram :=
  h.ram.trans (Event.replay_of_unstored fun s hs => hall _ hs s rfl)

/-- Reads give what was stored. -/
def Behaviour.Faithful (h : Behaviour) : Prop := ∀ r n v, h.readback r n v = v

open Event Board

variable {b b' : Board} {r : Register} {v d : Word} {low high : PhysAddr}

/-! ## Quiet steps -/

namespace Control

theorem emits_isb : Emits Quiet isb := emits_emit trivial (fun _ => rfl) fun _ => rfl

theorem emits_dsb (domain : Shareability) : Emits Quiet (dsb domain) :=
  emits_emit trivial (fun _ => rfl) fun _ => rfl

theorem emits_verify (r : Register) (wrote mask : Word) : Emits Quiet (verify r wrote mask) := by
  unfold verify
  refine emits_bind (emits_readRegister fun _ => trivial) fun seen => emits_ite ?_ (emits_pure _)
  exact emits_bind (emits_note ..) fun _ => emits_throw _

end Control

namespace Transition

theorem emits_arrive (uart : Word) : Emits Quiet (arrive uart) := by
  unfold arrive
  refine emits_bind (emits_readRegister fun _ => trivial) fun sctlr => emits_ite (emits_throw _) ?_
  have hprobe : ∀ text, Emits Quiet (probe uart text) := fun text =>
    emits_bind (emits_emit trivial (fun _ => rfl) fun _ => rfl) fun _ =>
      emits_bind emits_get fun _ => emits_pure _
  have hmove : Emits Quiet (moveConsole uart) := emits_moveConsole trivial
  have hbase : Emits Quiet consoleBase := emits_bind emits_get fun _ => emits_pure _
  refine emits_bind (hprobe _) fun ready => emits_ite ?_ ?_
  · refine emits_bind (emits_note ..) fun _ => emits_bind hbase fun _ => ?_
    exact emits_bind hmove fun _ => emits_note ..
  · exact emits_bind hbase fun _ => emits_bind hmove fun _ => emits_note ..

theorem emits_follow {P : Event → Prop} {what : Followed} {d : Word} (h : P (.follow what d)) :
    Emits P (follow what d) :=
  emits_emit h (fun _ => rfl) fun _ => rfl

theorem emits_followHeld {P : Event → Prop} {d : Word} (h : ∀ what, P (.follow what d))
    (names : List String) : Emits P (followHeld d names) := by
  induction names with
  | nil => exact emits_pure _
  | cons name rest ih =>
    unfold followHeld
    exact emits_bind (emits_follow (h _)) fun _ => ih

theorem emits_followNames {P : Event → Prop} {d : Word} (h : ∀ what, P (.follow what d))
    (records : List Mapping) : Emits P (followNames d records) := by
  induction records with
  | nil => exact emits_pure _
  | cons m rest ih =>
    unfold followNames
    exact emits_ite (emits_bind (emits_follow (h _)) fun _ => ih) ih

end Transition

/-! ## Writing the registers -/

namespace Control

/-- The write is the only thing that happens. -/
theorem happens_of_write (h : write r v b = .ok () b') : Happens b b' [.write r v] := by
  cases h
  exact Happens.one rfl rfl rfl rfl

/-- What a read gives is the answer of the processor. -/
theorem happens_of_read (h : readRegister r b = .ok v b') :
    v = b.cpu.answer r ∧ Happens b b' [.read r v] := by
  cases h
  exact ⟨rfl, Happens.one rfl rfl rfl rfl⟩

theorem exists_of_writeVerified (h : writeVerified r v b = .ok () b') :
    ∃ q, (∀ e ∈ q, Quiet e) ∧ Happens b b' (.write r v :: q) := by
  obtain ⟨_, b₁, hwrite, hrest⟩ := exists_of_run_bind h
  obtain ⟨q, hq, hquiet⟩ := (emits_bind emits_isb fun _ => emits_verify ..).of_ok hrest
  exact ⟨q, hquiet, (happens_of_write hwrite).trans hq⟩

theorem exists_of_programWalks {width : VaWidth} {walks : Walks}
    (h : programWalks width walks b = .ok () b') :
    ∃ q, (∀ e ∈ q, Quiet e) ∧ Happens b b' (.write .tcr (walkControl width walks) :: q) := by
  obtain ⟨_, b₁, hwrite, hrest⟩ := exists_of_run_bind h
  obtain ⟨q, hquiet, hq⟩ := exists_of_writeVerified hwrite
  cases hrest
  exact ⟨q, hquiet, hq.trace, hq.ram, hq.registers, hq.behaviour⟩

/-- The bases are written one after the other. -/
theorem exists_of_setRoots (h : (setRoots low high).run b = .ok (.ok ()) b') :
    ∃ q, (∀ e ∈ q, Quiet e) ∧
      Happens b b' (.write .ttbr0 low.val :: .write .ttbr1 high.val :: q) := by
  unfold setRoots at h
  cases hbad : misalignedBase? low high with
  | some e =>
    obtain ⟨r, base⟩ := e
    rw [hbad] at h
    cases h
  | none =>
    rw [hbad] at h
    obtain ⟨_, b₁, hlow, hrest₁⟩ := exists_of_run_bindE h
    obtain ⟨_, b₂, hhigh, hrest₂⟩ := exists_of_run_bindE hrest₁
    have hquiet := emits_bindE (emits_lift emits_isb) fun _ =>
      emits_bindE (emits_lift (emits_verify .ttbr0 low.val allBits)) fun _ =>
        emits_lift (δ := BaseError) (emits_verify .ttbr1 high.val allBits)
    obtain ⟨q, hq, hall⟩ := hquiet.of_ok hrest₂
    refine ⟨q, hall, ?_⟩
    exact (happens_of_write (exists_of_lift hlow)).trans
      ((happens_of_write (exists_of_lift hhigh)).trans hq)

/-- The events by which all cached resolutions are dropped. -/
def dropping : List Event := [.dsb .system, .tlbi, .dsb .core, .isb]

theorem happens_of_dropCached (h : dropCached b = .ok () b') : Happens b b' dropping := by
  cases h
  exact ⟨by simp [dropping], rfl, rfl, rfl⟩

theorem exists_of_enable (h : enable b = .ok () b') :
    ∃ q, (∀ e ∈ q, Quiet e) ∧ Happens b b' (.read .sctlr (b.cpu.answer .sctlr) ::
      .write .sctlr (b.cpu.answer .sctlr ||| resolving) :: q) := by
  obtain ⟨before, b₁, hread, hrest₁⟩ := exists_of_run_bind h
  obtain ⟨rfl, hread⟩ := happens_of_read hread
  obtain ⟨_, b₂, hwrite, hrest₂⟩ := exists_of_run_bind hrest₁
  obtain ⟨q, hq, hquiet⟩ := (emits_bind emits_isb fun _ => emits_verify ..).of_ok hrest₂
  refine ⟨q, hquiet, ?_⟩
  exact hread.trans ((happens_of_write hwrite).trans hq)

/-- The walks are switched in the value that the register gives. -/
theorem exists_of_switchWalks {walks : Walks} (h : switchWalks walks b = .ok () b') :
    ∃ q, (∀ e ∈ q, Quiet e) ∧ Happens b b' (.read .tcr (b.cpu.answer .tcr) ::
      .write .tcr (withWalks (b.cpu.answer .tcr) walks) :: q) := by
  obtain ⟨before, b₁, hread, hrest⟩ := exists_of_run_bind h
  obtain ⟨rfl, hread⟩ := happens_of_read hread
  obtain ⟨q, hquiet, hq⟩ := exists_of_writeVerified hrest
  exact ⟨q, hquiet, hread.trans hq⟩

/-- The events that program memory types, walks and roots, with quiet ones after the writes. -/
def programming (low high : PhysAddr) (width : VaWidth) (walks : Walks) (q₁ q₂ q₃ : List Event) :
    List Event :=
  .write .mair attributes :: q₁ ++ .write .tcr (walkControl width walks) :: q₂ ++
    .write .ttbr0 low.val :: .write .ttbr1 high.val :: q₃

/-- The whole sequence programs the registers, drops cached resolutions and turns resolution
on. -/
theorem exists_of_apply {width : VaWidth} {walks : Walks}
    (h : (apply low high width walks).run b = .ok (.ok ()) b') :
    ∃ q₁ q₂ q₃ q₄ u, (∀ e ∈ q₁ ++ q₂ ++ q₃ ++ q₄, Quiet e) ∧
      Happens b b' (programming low high width walks q₁ q₂ q₃ ++ (dropping ++
        .read .sctlr u :: .write .sctlr (u ||| resolving) :: q₄)) := by
  obtain ⟨_, b₁, hattributes, hrest₁⟩ := exists_of_run_bindE h
  obtain ⟨q₁, hquiet₁, h₁⟩ := exists_of_writeVerified (exists_of_lift hattributes)
  obtain ⟨_, b₂, hwalks, hrest₂⟩ := exists_of_run_bindE hrest₁
  obtain ⟨q₂, hquiet₂, h₂⟩ := exists_of_programWalks (exists_of_lift hwalks)
  obtain ⟨_, b₃, hroots, hrest₃⟩ := exists_of_run_bindE hrest₂
  obtain ⟨q₃, hquiet₃, h₃⟩ := exists_of_setRoots hroots
  obtain ⟨_, b₄, hdsb, hrest₄⟩ := exists_of_run_bindE hrest₃
  obtain ⟨q₄, h₄, hquiet₄⟩ := (emits_dsb _).of_ok (exists_of_lift hdsb)
  obtain ⟨_, b₅, hisb, hrest₅⟩ := exists_of_run_bindE hrest₄
  obtain ⟨q₅, h₅, hquiet₅⟩ := emits_isb.of_ok (exists_of_lift hisb)
  obtain ⟨_, b₆, hdrop, hrest₆⟩ := exists_of_run_bindE hrest₅
  have h₆ := happens_of_dropCached (exists_of_lift hdrop)
  obtain ⟨_, b₇, henable, hrest₇⟩ := exists_of_run_bindE hrest₆
  obtain ⟨q₇, hquiet₇, h₇⟩ := exists_of_enable (exists_of_lift henable)
  -- What follows address resolution only synchronizes and logs.
  have hlast := emits_bindE (emits_lift (δ := BaseError) emits_isb) fun _ =>
    emits_bindE (emits_lift (emits_dsb .system)) fun _ =>
      emits_bindE (emits_lift emits_isb) fun _ => emits_lift (emits_note .info .control
        s!"translation on ({walks.name}): TTBR0={low} TTBR1={high}")
  obtain ⟨q₈, h₈, hquiet₈⟩ := hlast.of_ok hrest₇
  refine ⟨q₁, q₂, q₃ ++ q₄ ++ q₅, q₇ ++ q₈, b₆.cpu.answer .sctlr, ?_, ?_⟩
  · simp only [List.forall_mem_append]
    exact ⟨⟨⟨hquiet₁, hquiet₂⟩, ⟨hquiet₃, hquiet₄⟩, hquiet₅⟩, hquiet₇, hquiet₈⟩
  · have hbefore : Happens b b₅ _ := h₁.trans (h₂.trans (h₃.trans (h₄.trans h₅)))
    have hall : Happens b b' _ := hbefore.trans (h₆.trans (h₇.trans h₈))
    simpa [programming, dropping] using hall

end Control

namespace Transition

/-! ## Up to the moment address resolution is on -/

variable {c : MemoryConfig} {l : ImageLayout} {w : Window} {roots : Roots} {s s' : Space}

/-- Registers that are ready for address resolution, over those that are not concerned. -/
def armed (l : ImageLayout) (roots : Roots) (f : PerRegister Word) : PerRegister Word :=
  ((((f.set .vbar l.vectors.val).set .mair Control.attributes).set .tcr
    (Control.walkControl .bits48 .dual)).set .ttbr0 roots.low.val).set .ttbr1 roots.high.val

/-- Events that make everything ready for address resolution: the vectors are physical, the
registers are programmed, and after the roots have been written all cached resolutions are
dropped. -/
structure Arms (l : ImageLayout) (roots : Roots) (es : List Event) : Prop where
  registers : ∀ f, Event.registers f es = armed l roots f
  still : ∀ e ∈ es, e.Still
  off : ∀ u, .write .sctlr u ∉ es
  dropped : ∃ x q, es = x ++ Control.dropping ++ q ∧ .write .ttbr0 roots.low.val ∈ x ∧
    .write .ttbr1 roots.high.val ∈ x ∧ ∀ e ∈ q, Quiet e

/-- Turning address resolution on stores nothing. -/
theorem Arms.ram_eq {b b' : Board} {es q : List Event} {u : Word} (h : Arms l roots es)
    (hquiet : ∀ e ∈ q, Quiet e) (hall : Happens b b' (es ++ .write .sctlr u :: q)) :
    b'.ram = b.ram := by
  refine hall.ram_of_still ?_
  rw [List.forall_mem_append, List.forall_mem_cons]
  exact ⟨h.still, nofun, fun e he => (hquiet e he).still⟩

theorem arms_programming (q₀ q₁ q₂ q₃ : List Event) (u : Word)
    (hquiet : ∀ e ∈ q₀ ++ q₁ ++ q₂ ++ q₃, Quiet e) :
    Arms l roots (.write .vbar l.vectors.val :: q₀ ++
      (Control.programming roots.low roots.high .bits48 .dual q₁ q₂ q₃ ++
        (Control.dropping ++ [.read .sctlr u]))) := by
  simp only [List.forall_mem_append] at hquiet
  obtain ⟨⟨⟨hquiet₀, hquiet₁⟩, hquiet₂⟩, hquiet₃⟩ := hquiet
  constructor
  case registers =>
    intro f
    simp only [Control.programming, registers_append, registers_write, List.cons_append,
      registers_of_quiet hquiet₀, registers_of_quiet hquiet₁, registers_of_quiet hquiet₂,
      registers_of_quiet hquiet₃]
    rfl
  case still =>
    have hstill : ∀ {q : List Event}, (∀ e ∈ q, Quiet e) → ∀ e ∈ q, e.Still :=
      fun h e he => (h e he).still
    simp only [Control.programming, Control.dropping, List.forall_mem_append, List.forall_mem_cons]
    exact ⟨⟨nofun, hstill hquiet₀⟩, ⟨⟨⟨nofun, hstill hquiet₁⟩, nofun, hstill hquiet₂⟩, nofun, nofun,
      hstill hquiet₃⟩, ⟨nofun, nofun, nofun, nofun, nofun⟩, nofun, nofun⟩
  case off =>
    intro u
    have hnot : ∀ {q : List Event}, (∀ e ∈ q, Quiet e) → .write .sctlr u ∉ q :=
      fun h => not_mem_of_quiet h id
    simp [Control.programming, Control.dropping, hnot hquiet₀, hnot hquiet₁, hnot hquiet₂,
      hnot hquiet₃]
  case dropped =>
    refine ⟨.write .vbar l.vectors.val :: q₀ ++
      Control.programming roots.low roots.high .bits48 .dual q₁ q₂ q₃, [.read .sctlr u], ?_⟩
    simp [Control.programming, Quiet]

/-- Turning address resolution on. -/
theorem exists_of_enable (hwidth : c.width = .bits48)
    (h : (enable c l roots).run s = .ok (.ok ()) s') :
    ∃ b es u q, s' = s.withMemory { s.memory with board := b } ∧ Arms l roots es ∧
      (∀ e ∈ q, Quiet e) ∧
      Happens s.memory.board b (es ++ .write .sctlr (u ||| Control.resolving) :: q) := by
  unfold enable at h
  rw [hwidth] at h
  obtain ⟨_, s₁, hvectors, hrest₁⟩ := exists_of_run_bindE h
  obtain ⟨b₁, hb₁, rfl⟩ := Space.exists_of_board (exists_of_lift hvectors)
  obtain ⟨q₀, hquiet₀, h₀⟩ := Control.exists_of_writeVerified hb₁
  obtain ⟨res, s₂, happly, hrest₂⟩ := exists_of_run_bindE hrest₁
  obtain ⟨m₂, hm₂, rfl⟩ := Space.exists_of_onMemory (exists_of_lift happly)
  obtain ⟨b₂, hb₂, rfl⟩ := Memory.exists_of_onBoard hm₂
  cases res with
  | error e => cases hrest₂
  | ok u =>
    obtain ⟨q₁, q₂, q₃, q₄, u, hquiet, h₂⟩ := Control.exists_of_apply hb₂
    obtain ⟨b₃, hb₃, rfl⟩ := Space.exists_of_board (exists_of_lift hrest₂)
    obtain ⟨q₅, h₃, hquiet₅⟩ := (emits_advance _ _).of_ok (P := Quiet) hb₃
    rw [List.forall_mem_append] at hquiet
    refine ⟨b₃, _, u, q₄ ++ q₅, rfl,
      arms_programming q₀ q₁ q₂ q₃ u ?_, ?_, ?_⟩
    · simp only [List.forall_mem_append] at hquiet ⊢
      exact ⟨⟨⟨hquiet₀, hquiet.1.1.1⟩, hquiet.1.1.2⟩, hquiet.1.2⟩
    · rw [List.forall_mem_append]
      exact ⟨hquiet.2, hquiet₅⟩
    · have hall : Happens s.memory.board b₃ _ := h₀.trans (h₂.trans h₃)
      simpa only [List.cons_append, List.append_assoc, List.nil_append] using hall

/-! ## After that moment -/

/-- Switching the walks gives the value that the policy has for the high half alone. -/
theorem withWalks_walkControl (width : VaWidth) :
    Control.withWalks (Control.walkControl width .dual) .highOnly =
      Control.walkControl width .highOnly := by
  cases width <;> decide

/-- The window through which RAM is reached once execution has moved. -/
def landing (c : MemoryConfig) (w : Window) (behaviour : Behaviour) : Window :=
  w.shifted (behaviour.aliasAt (w.reach c.memory.start) (behaviour.moved highBase) -
    w.reach c.memory.start)

/-- What the move relies on: the managed range lies in RAM, RAM is reached through the window
and found again where the processor says that it is after the move, and the data is a range inside
the image. Where the relocation table lies is left open. -/
structure Hosted (c : MemoryConfig) (l : ImageLayout) (b : Board) (w : Window) : Prop where
  shows : b.ram.Shows w
  inside : b.ram.Has c.memory.start.num (c.memory.stop.num - c.memory.start.num)
  mirrored : b.ram.Shows (landing c w b.cpu.behaviour)
  data_low : l.image.start.num ≤ l.data.start.num
  data_le : l.data.start.num ≤ l.data.stop.num
  data_high : l.data.stop.num ≤ l.image.stop.num

theorem Hosted.congr (h : Hosted c l b w) (hbank : Ram.SameBank b.ram b'.ram)
    (hbehaviour : b'.cpu.behaviour = b.cpu.behaviour) : Hosted c l b' w where
  shows := hbank.shows h.shows
  inside := hbank.has.2 h.inside
  mirrored := by
    rw [hbehaviour]
    exact hbank.shows h.mirrored
  data_low := h.data_low
  data_le := h.data_le
  data_high := h.data_high

/-- What the switch relies on: the image is where it has to be, its data lies in RAM, and its
relocation table has been accepted. -/
structure Movable (c : MemoryConfig) (l : ImageLayout) (m : Memory) : Prop where
  hosted : Hosted c l m.board m.frames.window
  data : m.board.ram.Has l.data.start.num (l.data.stop.num - l.data.start.num)
  accepted : ∀ j < (relocations l).count, Relocations.Accepted l.data
    ((relocations l).record m.board.ram m.frames.window j)

theorem Movable.congr {m m' : Memory} (h : Movable c l m) (hframes : m'.frames = m.frames)
    (hram : m'.board.ram = m.board.ram)
    (hbehaviour : m'.board.cpu.behaviour = m.board.cpu.behaviour) : Movable c l m' where
  hosted := by
    rw [hframes]
    exact h.hosted.congr (by rw [hram]; exact Ram.SameBank.refl _) hbehaviour
  data := by
    rw [hram]
    exact h.data
  accepted := by
    rw [hram, hframes]
    exact h.accepted

/-- Execution is moved, and nothing else happens that is not quiet. -/
theorem exists_of_moveExecution (h : moveExecution c b = .ok d b') :
    d = b.cpu.behaviour.moved c.highBase ∧
      ∃ q, (∀ e ∈ q, Quiet e) ∧ Happens b b' (.relocate c.highBase :: q) := by
  obtain ⟨d', b₁, hmove, hrest₁⟩ := exists_of_run_bind h
  cases hmove
  obtain ⟨_, b₂, harrive, hrest₂⟩ := exists_of_run_bind hrest₁
  obtain ⟨q₂, h₂, hquiet₂⟩ := (emits_arrive _).of_ok harrive
  obtain ⟨_, b₃, hadvance, hrest₃⟩ := exists_of_run_bind hrest₂
  obtain ⟨q₃, h₃, hquiet₃⟩ := (emits_advance _ _).of_ok (P := Quiet) hadvance
  cases hrest₃
  refine ⟨rfl, q₂ ++ q₃, List.forall_mem_append.2 ⟨hquiet₂, hquiet₃⟩, ?_⟩
  have hmoved : Happens b { b with trace := b.trace.push (.relocate c.highBase) }
      [.relocate c.highBase] := Happens.one rfl rfl rfl rfl
  exact hmoved.trans (h₂.trans h₃)

theorem exists_of_moveVectors (h : moveVectors c l b = .ok () b') :
    ∃ q, (∀ e ∈ q, Quiet e) ∧ Happens b b' (.write .vbar (l.vectors.val ||| c.highBase) :: q) := by
  obtain ⟨_, b₁, hvectors, hrest⟩ := exists_of_run_bind h
  obtain ⟨q₁, hquiet₁, h₁⟩ := Control.exists_of_writeVerified hvectors
  obtain ⟨q₂, h₂, hquiet₂⟩ := (emits_advance _ _).of_ok (P := Quiet) hrest
  exact ⟨q₁ ++ q₂, List.forall_mem_append.2 ⟨hquiet₁, hquiet₂⟩, h₁.trans h₂⟩

/-- Execution and the vectors are moved, and nothing else happens that is not quiet. -/
theorem exists_of_hop {b₁ b₂ : Board} (hhigh : c.highBase = highBase)
    (hmove : moveExecution c b = .ok d b₁) (hheld : followHeld d held b₁ = .ok () b₂)
    (hvectors : moveVectors c l b₂ = .ok () b') :
    d = b.cpu.behaviour.moved highBase ∧ ∃ q₁ q₂, (∀ e ∈ q₁ ++ q₂, Quiet e) ∧
      Happens b b' (.relocate highBase :: q₁ ++
        .write .vbar (l.vectors.val ||| highBase) :: q₂) := by
  obtain ⟨hd, q₁, hquiet₁, h₁⟩ := exists_of_moveExecution hmove
  obtain ⟨q₂, h₂, hquiet₂⟩ := (emits_followHeld (P := Quiet) (fun _ => trivial) _).of_ok hheld
  obtain ⟨q₃, hquiet₃, h₃⟩ := exists_of_moveVectors hvectors
  rw [hhigh] at hd h₁ h₃
  refine ⟨hd, q₁ ++ q₂, q₃, ?_, ?_⟩
  · simp only [List.forall_mem_append]
    exact ⟨⟨hquiet₁, hquiet₂⟩, hquiet₃⟩
  · have hall : Happens b b' _ := h₁.trans (h₂.trans h₃)
    simpa only [List.cons_append, List.append_assoc] using hall

/-- Moving execution and the vectors stores nothing. -/
theorem ram_of_hop {u : Word} {q₁ q₂ : List Event}
    (h : Happens b b' (.relocate u :: q₁ ++ .write r v :: q₂))
    (hquiet : ∀ e ∈ q₁ ++ q₂, Quiet e) : b'.ram = b.ram := by
  refine h.ram_of_still ?_
  have hstill : ∀ e ∈ q₁ ++ q₂, e.Still := fun e he => (hquiet e he).still
  simp only [List.forall_mem_append, List.forall_mem_cons] at hstill ⊢
  exact ⟨⟨nofun, hstill.1⟩, nofun, hstill.2⟩

/-- Moving execution and the vectors writes no other register. -/
theorem get_registers_of_hop {u : Word} {g : Register} {q₁ q₂ : List Event} (hne : g ≠ r)
    (h : Happens b b' (.relocate u :: q₁ ++ .write r v :: q₂))
    (hquiet : ∀ e ∈ q₁ ++ q₂, Quiet e) : b'.cpu.registers.get g = b.cpu.registers.get g := by
  rw [h.registers]
  refine get_registers_of_unwritten fun v hv => ?_
  simp only [List.forall_mem_append] at hquiet
  simp only [List.mem_append, List.mem_cons, reduceCtorEq, false_or, write.injEq, hne,
    false_and] at hv
  exact hv.elim (hquiet.1 _) (hquiet.2 _)

/-- RAM is looked up again, and the window moves to where it was found. -/
theorem exists_of_land {m m' : Memory} {there : Word}
    (hd : d = m.board.cpu.behaviour.moved highBase)
    (halias : aliasOfRam (m.frames.window.reach c.memory.start) d m.board = .ok there b)
    (hshift : Memory.shiftWindow (there - m.frames.window.reach c.memory.start) ⟨b, m.frames⟩ =
      .ok () m') :
    m'.frames = { m.frames with window := landing c m.frames.window m.board.cpu.behaviour } ∧
      Happens m.board m'.board [.follow (.ram (m.frames.window.reach c.memory.start)) d] := by
  cases halias
  cases hshift
  refine ⟨?_, Happens.one rfl rfl rfl rfl⟩
  rw [landing, ← hd]

/-- The table's stores during the move. -/
def rewritten (c : MemoryConfig) (l : ImageLayout) (m : Memory) : List Event :=
  (relocations l).rewrites m.board.ram m.frames.window
    (landing c m.frames.window m.board.cpu.behaviour) (m.board.cpu.behaviour.moved highBase) 0
    (relocations l).count

theorem rewritten_congr {m m' : Memory} (hframes : m'.frames = m.frames)
    (hram : m'.board.ram = m.board.ram)
    (hbehaviour : m'.board.cpu.behaviour = m.board.cpu.behaviour) :
    rewritten c l m' = rewritten c l m := by
  rw [rewritten, rewritten, hram, hframes, hbehaviour]

/-- From where RAM is found, a relocation table apart from the data can be applied again. -/
theorem Movable.run_rebase {m : Memory} (h : Movable c l m)
    (htable : (relocations l).Apart m.board.ram l.data) (hram : b.ram = m.board.ram) :
    ∃ b', (relocations l).rebase (landing c m.frames.window m.board.cpu.behaviour)
        (m.board.cpu.behaviour.moved highBase) b = .ok (relocations l).count b' ∧
      Happens b b' (rewritten c l m) :=
  htable.run_rebase h.hosted.shows h.hosted.mirrored h.data h.accepted hram _

/-- Wherever the table lies, once it has been applied the stores are those that are known. -/
theorem Movable.happens_of_rebase {m m₁ : Memory} {count : Nat} (h : Movable c l m)
    (hd : d = m.board.cpu.behaviour.moved highBase)
    (hframes : m₁.frames = { m.frames with
      window := landing c m.frames.window m.board.cpu.behaviour })
    (hram : m₁.board.ram = m.board.ram)
    (hrun : (relocations l).rebase m₁.frames.window d m₁.board = .ok count b) :
    Happens m₁.board b (rewritten c l m) := by
  rw [hframes, hd] at hrun
  exact Relocations.happens_of_rebase h.hosted.shows h.hosted.mirrored h.data h.accepted hram hrun

/-- The walks of the low half are switched off, and what they had resolved is dropped. -/
theorem exists_of_leaveLow (hrun : (do
      Control.switchWalks .highOnly
      Control.dropCached
      modify fun s => { s with live := .highOnly }
      advance .vectorsMoved .highOnly : SpaceM Unit) s = .ok () s') :
    ∃ q, (∀ e ∈ q, Quiet e) ∧ s'.memory.frames = s.memory.frames ∧
      Happens s.memory.board s'.memory.board (.read .tcr (s.memory.board.cpu.answer .tcr) ::
        .write .tcr (Control.withWalks (s.memory.board.cpu.answer .tcr) .highOnly) :: q) := by
  obtain ⟨_, s₁, hwalks, hrest₁⟩ := exists_of_run_bind hrun
  obtain ⟨b₁, hb₁, rfl⟩ := Space.exists_of_board hwalks
  obtain ⟨q₁, hquiet₁, h₁⟩ := Control.exists_of_switchWalks hb₁
  obtain ⟨_, s₂, hdrop, hrest₂⟩ := exists_of_run_bind hrest₁
  obtain ⟨b₂, hb₂, rfl⟩ := Space.exists_of_board hdrop
  have h₂ := Control.happens_of_dropCached hb₂
  obtain ⟨_, s₃, hlive, hrest₃⟩ := exists_of_run_bind hrest₂
  cases hlive
  obtain ⟨b₃, hb₃, rfl⟩ := Space.exists_of_board hrest₃
  obtain ⟨q₃, h₃, hquiet₃⟩ := (emits_advance _ _).of_ok (P := Quiet) hb₃
  refine ⟨q₁ ++ (Control.dropping ++ q₃), ?_, rfl, h₁.trans (h₂.trans h₃)⟩
  simp only [List.forall_mem_append]
  exact ⟨hquiet₁, by simp [Control.dropping, Quiet], hquiet₃⟩

theorem exists_of_collapse (h : Movable c l s.memory)
    (hd : d = s.memory.board.cpu.behaviour.moved highBase)
    (hrun : collapse c l d s = .ok () s') :
    ∃ t q₁ q₂ q₃, (∀ e ∈ q₁ ++ q₂ ++ q₃, Quiet e) ∧
      (s.memory.board.cpu.behaviour.Faithful →
        t = Control.withWalks (s.memory.board.cpu.registers.get .tcr) .highOnly) ∧
      s'.memory.frames = { s.memory.frames with
        window := landing c s.memory.frames.window s.memory.board.cpu.behaviour } ∧
      Happens s.memory.board s'.memory.board (q₁ ++ rewritten c l s.memory ++
        (q₂ ++ .write .tcr t :: q₃)) := by
  rw [collapse] at hrun
  obtain ⟨_, s₁, hget₁, hrest₁⟩ := exists_of_run_bind hrun
  cases hget₁
  obtain ⟨there, s₂, halias, hrest₂⟩ := exists_of_run_bind hrest₁
  obtain ⟨b₂, hb₂, rfl⟩ := Space.exists_of_board halias
  obtain ⟨_, s₃, hshift, hrest₃⟩ := exists_of_run_bind hrest₂
  obtain ⟨m₃, hm₃, rfl⟩ := Space.exists_of_onMemory hshift
  obtain ⟨hframes₃, h₃⟩ := exists_of_land (m := s.memory) hd hb₂ hm₃
  obtain ⟨_, s₄, hget₄, hrest₄⟩ := exists_of_run_bind hrest₃
  cases hget₄
  obtain ⟨count, s₅, hrebase, hrest₅⟩ := exists_of_run_bind hrest₄
  obtain ⟨b₅, hb₅, rfl⟩ := Space.exists_of_board hrebase
  have h₅ := h.happens_of_rebase hd hframes₃ h₃.ram hb₅
  obtain ⟨_, s₆, hget₆, hrest₆⟩ := exists_of_run_bind hrest₅
  cases hget₆
  obtain ⟨_, s₇, hnames, hrest₇⟩ := exists_of_run_bind hrest₆
  obtain ⟨b₇, hb₇, rfl⟩ := Space.exists_of_board hnames
  obtain ⟨q₁, h₇, hquiet₁⟩ := (emits_followNames (P := Quiet) (fun _ => trivial) _).of_ok hb₇
  obtain ⟨q₂, hquiet₂, hframes', hafter⟩ := exists_of_leaveLow hrest₇
  replace hafter : Happens b₇ s'.memory.board (.read .tcr (b₇.cpu.answer .tcr) ::
    .write .tcr (Control.withWalks (b₇.cpu.answer .tcr) .highOnly) :: q₂) := hafter
  have hbefore : Happens s.memory.board b₇ _ := h₃.trans (h₅.trans h₇)
  refine ⟨Control.withWalks (b₇.cpu.answer .tcr) .highOnly,
    [.follow (.ram (s.memory.frames.window.reach c.memory.start)) d],
    q₁ ++ [.read .tcr (b₇.cpu.answer .tcr)], q₂, ?_, ?_, hframes'.trans hframes₃, ?_⟩
  · simp only [List.forall_mem_append, List.forall_mem_singleton]
    exact ⟨⟨trivial, hquiet₁, trivial⟩, hquiet₂⟩
  · intro hfaithful
    -- Nothing before the read has written the register.
    rw [Processor.answer, hbefore.behaviour, hfaithful, hbefore.registers,
      get_registers_of_unwritten]
    intro v hv
    simp only [List.mem_append, List.mem_singleton] at hv
    rcases hv with hv | hv | hv
    · cases hv
    · exact Relocations.write_not_mem_rewrites hv
    · exact hquiet₁ _ hv
  · have hall : Happens s.memory.board s'.memory.board _ := hbefore.trans hafter
    simpa only [List.cons_append, List.append_assoc, List.nil_append] using hall

/-- All of the second part. -/
theorem exists_of_complete (h : Movable c l s.memory) (hhigh : c.highBase = highBase)
    (hrun : complete c l s = .ok d s') :
    ∃ t q₁ q₂ q₃ q₄, (∀ e ∈ q₁ ++ q₂ ++ q₃ ++ q₄, Quiet e) ∧
      (s.memory.board.cpu.behaviour.Faithful →
        t = Control.withWalks (s.memory.board.cpu.registers.get .tcr) .highOnly) ∧
      s'.memory.frames = { s.memory.frames with
        window := landing c s.memory.frames.window s.memory.board.cpu.behaviour } ∧
      Happens s.memory.board s'.memory.board (.relocate highBase :: q₁ ++
        (.write .vbar (l.vectors.val ||| highBase) :: q₂ ++
          (rewritten c l s.memory ++ (q₃ ++ .write .tcr t :: q₄)))) := by
  rw [complete] at hrun
  obtain ⟨d', s₁, hmove, hrest₁⟩ := exists_of_run_bind hrun
  obtain ⟨b₁, hb₁, rfl⟩ := Space.exists_of_board hmove
  obtain ⟨_, s₂, hheld, hrest₂⟩ := exists_of_run_bind hrest₁
  obtain ⟨b₂, hb₂, rfl⟩ := Space.exists_of_board hheld
  obtain ⟨_, s₃, hvectors, hrest₃⟩ := exists_of_run_bind hrest₂
  obtain ⟨b₃, hb₃, hs₃⟩ := Space.exists_of_board hvectors
  obtain ⟨_, s₄, hcollapse, hdone⟩ := exists_of_run_bind hrest₃
  cases hdone
  obtain rfl : s₃.memory.board = b₃ := by
    rw [hs₃]
    rfl
  have hframes₃ : s₃.memory.frames = s.memory.frames := by
    rw [hs₃]
    rfl
  obtain ⟨hd, q₁, q₂, hquiet₀, hbefore⟩ := exists_of_hop hhigh hb₁ hb₂ hb₃
  -- The table and the data are as they were when the move began.
  have hram := ram_of_hop hbefore hquiet₀
  have hregister := get_registers_of_hop (g := .tcr) (by decide) hbefore hquiet₀
  have hbehaviour := hbefore.behaviour
  obtain ⟨t, q₃, q₄, q₅, hquiet, ht, hframes, h₄⟩ := exists_of_collapse
    (h.congr hframes₃ hram hbehaviour) (by rw [hd, hbehaviour]) hcollapse
  rw [hframes₃, hbehaviour] at hframes
  refine ⟨t, q₁, q₂ ++ q₃, q₄, q₅, ?_, ?_, hframes, ?_⟩
  · simp only [List.forall_mem_append] at hquiet₀ hquiet ⊢
    exact ⟨⟨⟨hquiet₀.1, hquiet₀.2, hquiet.1.1⟩, hquiet.1.2⟩, hquiet.2⟩
  · intro hfaithful
    rw [ht (by rwa [hbehaviour]), hregister]
  · have hdone := hbefore.trans h₄
    rw [rewritten_congr hframes₃ hram hbehaviour] at hdone
    simpa only [List.cons_append, List.append_assoc] using hdone

end Transition

end HighHalf
