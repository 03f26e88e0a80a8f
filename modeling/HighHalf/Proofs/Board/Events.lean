import HighHalf.Proofs.Board.Steps

/-!
# What happens during a step

Whatever way a step of the kernel ends, the events that it puts at the end of the trace are all
that happened to RAM and to the registers: replaying them from the board before gives the board
after. Which events a step can make is found from the events of its parts.

## Main definitions

* `Event.registers`: the registers after some events
* `Board.Happens`: the events between two boards
* `Board.Only`: only events of one kind happened between two boards
* `Emits`: only events of one kind happen during a step
-/

namespace HighHalf

variable {ε σ α β δ : Type}

/-! ## Registers after some events -/

namespace Event

/-- The registers after the writes among `events`. -/
def registers (f : PerRegister Word) (events : List Event) : PerRegister Word :=
  events.foldl (fun f e => match e with | write r v => f.set r v | _ => f) f

variable {f : PerRegister Word} {r : Ram} {es es' : List Event} {g : Register} {v : Word}

@[simp] theorem registers_nil : registers f [] = f := rfl

@[simp] theorem replay_nil : replay r [] = r := rfl

theorem registers_append : registers f (es ++ es') = registers (registers f es) es' :=
  List.foldl_append

theorem replay_append : replay r (es ++ es') = replay (replay r es) es' :=
  List.foldl_append

@[simp] theorem registers_write (es : List Event) :
    registers f (write g v :: es) = registers (f.set g v) es := rfl

theorem replay_store (s : Store) (es : List Event) :
    replay r (store s :: es) = replay (s.apply r) es := rfl

/-- A register that is not written keeps its value. -/
theorem get_registers_of_unwritten (h : ∀ v, write g v ∉ es) :
    (registers f es).get g = f.get g := by
  induction es generalizing f with
  | nil => rfl
  | cons e es ih =>
    have hrest : ∀ v, write g v ∉ es := fun v hv => h v (List.mem_cons_of_mem e hv)
    cases e with
    | write k v =>
      have hne : g ≠ k := by
        rintro rfl
        exact h v List.mem_cons_self
      rw [registers_write, ih hrest, PerRegister.get_set_of_ne f hne]
    | _ => exact ih hrest

theorem registers_of_unwritten (h : ∀ g v, write g v ∉ es) : registers f es = f :=
  PerRegister.ext_get fun g => get_registers_of_unwritten (h g)

/-- RAM is left alone unless something is stored. -/
theorem replay_of_unstored (h : ∀ s, store s ∉ es) : replay r es = r := by
  induction es with
  | nil => rfl
  | cons e es ih =>
    have hrest : ∀ s, store s ∉ es := fun s hs => h s (List.mem_cons_of_mem e hs)
    cases e with
    | store s => exact absurd List.mem_cons_self (h s)
    | _ => exact ih hrest

end Event

/-! ## The events between two boards -/

namespace Board

/-- The events that happened between two boards, which behave alike. -/
structure Happens (b b' : Board) (events : List Event) : Prop where
  trace : b'.trace.toList = b.trace.toList ++ events
  ram : b'.ram = Event.replay b.ram events
  registers : b'.cpu.registers = Event.registers b.cpu.registers events
  behaviour : b'.cpu.behaviour = b.cpu.behaviour

variable {b b' b'' : Board} {es es' : List Event}

theorem Happens.refl (b : Board) : Happens b b [] := ⟨by rw [List.append_nil], rfl, rfl, rfl⟩

theorem Happens.trans (h : Happens b b' es) (h' : Happens b' b'' es') :
    Happens b b'' (es ++ es') where
  trace := by rw [h'.trace, h.trace, List.append_assoc]
  ram := by rw [h'.ram, h.ram, Event.replay_append]
  registers := by rw [h'.registers, h.registers, Event.registers_append]
  behaviour := h'.behaviour.trans h.behaviour

/-- One event at the end of the trace, and the board that it makes. -/
theorem Happens.one {e : Event} (htrace : b'.trace = b.trace.push e)
    (hram : b'.ram = Event.replay b.ram [e])
    (hregisters : b'.cpu.registers = Event.registers b.cpu.registers [e])
    (hbehaviour : b'.cpu.behaviour = b.cpu.behaviour) : Happens b b' [e] :=
  ⟨by rw [htrace, Array.toList_push], hram, hregisters, hbehaviour⟩

/-- All events that happened between two boards have the property. -/
def Only (P : Event → Prop) (b b' : Board) : Prop := ∃ es, Happens b b' es ∧ ∀ e ∈ es, P e

variable {P Q : Event → Prop}

theorem Only.refl (P : Event → Prop) (b : Board) : Only P b b := ⟨[], Happens.refl b, nofun⟩

theorem Only.trans (h : Only P b b') (h' : Only P b' b'') : Only P b b'' := by
  obtain ⟨es, hes, hall⟩ := h
  obtain ⟨es', hes', hall'⟩ := h'
  exact ⟨es ++ es', hes.trans hes', List.forall_mem_append.2 ⟨hall, hall'⟩⟩

theorem Only.mono (h : Only P b b') (hPQ : ∀ e, P e → Q e) : Only Q b b' := by
  obtain ⟨es, hes, hall⟩ := h
  exact ⟨es, hes, fun e he => hPQ e (hall e he)⟩

end Board

/-! ## Events of one kind -/

/-- A state that the board is a part of. -/
class OnBoard (σ : Type) where
  board : σ → Board

instance : OnBoard Board := ⟨id⟩
instance : OnBoard Memory := ⟨Memory.board⟩
instance : OnBoard Space := ⟨fun s => s.memory.board⟩

/-- The state that a step leaves, whatever way it ends. -/
def leftBy : EStateM.Result ε σ α → σ
  | .ok _ s => s
  | .error _ s => s

/-- Whatever way the step ends, all events that happen have the property. -/
structure Emits [OnBoard σ] (P : Event → Prop) (x : EStateM ε σ α) : Prop where
  happens : ∀ s, ∃ es,
    Board.Happens (OnBoard.board s) (OnBoard.board (leftBy (x s))) es ∧ ∀ e ∈ es, P e

section Emits

variable [OnBoard σ] {P : Event → Prop} {x y : EStateM ε σ α} {f : α → EStateM ε σ β} {s s' : σ}
  {a : α}

theorem Emits.of_ok (h : Emits P x) (hrun : x s = .ok a s') :
    ∃ es, Board.Happens (OnBoard.board s) (OnBoard.board s') es ∧ ∀ e ∈ es, P e := by
  have hs := h.happens s
  rwa [hrun] at hs

theorem Emits.mono {Q : Event → Prop} (h : Emits P x) (hPQ : ∀ e, P e → Q e) : Emits Q x := by
  refine ⟨fun s => ?_⟩
  obtain ⟨es, hes, hall⟩ := h.happens s
  exact ⟨es, hes, fun e he => hPQ e (hall e he)⟩

/-- A step that stores nothing leaves RAM alone. -/
theorem Emits.ram_eq (h : Emits P x) (hP : ∀ s, ¬ P (.store s)) (hrun : x s = .ok a s') :
    (OnBoard.board s').ram = (OnBoard.board s).ram := by
  obtain ⟨es, hes, hall⟩ := h.of_ok hrun
  rw [hes.ram, Event.replay_of_unstored fun s hs => hP s (hall _ hs)]

/-- A step that ends with the board it began with. -/
theorem emits_of_still (h : ∀ s, OnBoard.board (leftBy (x s)) = OnBoard.board s) : Emits P x := by
  refine ⟨fun s => ⟨[], ?_, nofun⟩⟩
  rw [h s]
  exact Board.Happens.refl _

@[simp] theorem emits_pure (a : α) : Emits P (pure a : EStateM ε σ α) :=
  emits_of_still fun _ => rfl

@[simp] theorem emits_get : Emits P (get : EStateM ε σ σ) := emits_of_still fun _ => rfl

@[simp] theorem emits_throw (e : ε) : Emits P (throw e : EStateM ε σ α) :=
  emits_of_still fun _ => rfl

@[simp] theorem emits_check (r : Except Fatal α) : Emits P (liftM r : EStateM Fatal σ α) := by
  cases r with
  | ok a => exact emits_pure a
  | error e => exact emits_throw e

theorem emits_bind (hx : Emits P x) (hf : ∀ a, Emits P (f a)) : Emits P (x >>= f) := by
  refine ⟨fun s => ?_⟩
  obtain ⟨es, hes, hall⟩ := hx.happens s
  rw [run_bind]
  cases hxs : x s with
  | error e s' =>
    rw [hxs] at hes
    exact ⟨es, hes, hall⟩
  | ok a s' =>
    rw [hxs] at hes
    obtain ⟨es', hes', hall'⟩ := (hf a).happens s'
    refine ⟨es ++ es', hes.trans hes', fun e he => ?_⟩
    rcases List.mem_append.1 he with he | he
    · exact hall e he
    · exact hall' e he

theorem emits_ite {c : Prop} [Decidable c] (hx : Emits P x) (hy : Emits P y) :
    Emits P (if c then x else y) := by
  split
  · exact hx
  · exact hy

theorem emits_forIn {l : List α} {init : β} {f : α → β → EStateM ε σ (ForInStep β)}
    (hf : ∀ a b, Emits P (f a b)) : Emits P (forIn l init f) := by
  induction l generalizing init with
  | nil => exact emits_pure _
  | cons a l ih =>
    rw [List.forIn_cons]
    refine emits_bind (hf a init) fun r => ?_
    cases r with
    | done b => exact emits_pure _
    | yield b => exact ih

end Emits

section EmitsE

variable [OnBoard σ] {P : Event → Prop} {x y : ExceptT δ (EStateM ε σ) α}
  {f : α → ExceptT δ (EStateM ε σ) β}

@[simp] theorem emits_pureE (a : α) : Emits P (pure a : ExceptT δ (EStateM ε σ) α).run :=
  emits_pure _

@[simp] theorem emits_getE : Emits P (get : ExceptT δ (EStateM ε σ) σ).run :=
  emits_of_still fun _ => rfl

@[simp] theorem emits_throwE (d : δ) : Emits P (throw d : ExceptT δ (EStateM ε σ) α).run :=
  emits_pure _

@[simp] theorem emits_checkE (r : Except δ α) :
    Emits P (liftM r : ExceptT δ (EStateM ε σ) α).run := by
  cases r with
  | ok a => exact emits_pure _
  | error e => exact emits_pure _

theorem emits_lift {x : EStateM ε σ α} (h : Emits P x) :
    Emits P (liftM x : ExceptT δ (EStateM ε σ) α).run := by
  show Emits P (x >>= fun a => (pure (.ok a) : EStateM ε σ (Except δ α)))
  exact emits_bind h fun a => emits_pure _

theorem emits_bindE (hx : Emits P x.run) (hf : ∀ a, Emits P (f a).run) :
    Emits P (x >>= f).run := by
  refine emits_bind (f := ExceptT.bindCont f) hx fun r => ?_
  cases r with
  | ok a => exact hf a
  | error d => exact emits_pure _

/-- A refusal, whatever would follow. -/
theorem emits_refusalE (d : δ) : Emits P ((throw d : ExceptT δ (EStateM ε σ) α) >>= f).run :=
  emits_pure _

theorem emits_iteE {c : Prop} [Decidable c] (hx : Emits P x.run) (hy : Emits P y.run) :
    Emits P (if c then x else y).run := by
  split
  · exact hx
  · exact hy

end EmitsE

/-! ## Events of the board in the layers above -/

variable {P : Event → Prop}

theorem emits_onBoard {x : BoardM α} (h : Emits P x) : Emits P (liftM x : MemoryM α) := by
  refine ⟨fun ⟨b, f⟩ => ?_⟩
  obtain ⟨es, hes, hall⟩ := h.happens b
  refine ⟨es, ?_, hall⟩
  show Board.Happens b (OnBoard.board (leftBy (Memory.onBoard x ⟨b, f⟩))) es
  rw [Memory.onBoard]
  cases hx : x b with
  | ok a b' =>
    rw [hx] at hes
    exact hes
  | error e b' =>
    rw [hx] at hes
    exact hes

theorem emits_request {x : ExceptT δ BoardM α} (h : Emits P x.run) :
    Emits P (Memory.request x).run :=
  emits_onBoard h

theorem emits_onMemory {x : EStateM ε Memory α} (h : Emits P x) : Emits P (Space.onMemory x) := by
  refine ⟨fun ⟨config, layout, memory, ledger, live, roots, phase, mode, abort⟩ => ?_⟩
  obtain ⟨es, hes, hall⟩ := h.happens memory
  refine ⟨es, ?_, hall⟩
  rw [Space.onMemory]
  cases hx : x memory with
  | ok a m =>
    rw [hx] at hes
    exact hes
  | error e m =>
    rw [hx] at hes
    exact hes

theorem emits_updateFrames (g : Frames → Frames) : Emits P (Memory.updateFrames g) :=
  emits_of_still fun _ => rfl

/-! ## The events of the board's own steps -/

namespace Board

theorem emits_note (l : Level) (c : Component) (text : String) : Emits P (note l c text) :=
  ⟨fun _ => ⟨[], ⟨by rw [List.append_nil]; rfl, rfl, rfl, rfl⟩, nofun⟩⟩

theorem emits_emit {e : Event} (he : P e) (hram : ∀ r, Event.replay r [e] = r)
    (hregisters : ∀ f, Event.registers f [e] = f) : Emits P (emit e) := by
  refine ⟨fun b => ⟨[e], Happens.one rfl (hram _).symm (hregisters _).symm rfl, fun e' he' => ?_⟩⟩
  rwa [List.mem_singleton.1 he']

theorem emits_store {s : Store} (hs : P (.store s)) : Emits P (store s) := by
  refine ⟨fun b => ⟨[.store s], Happens.one rfl rfl rfl rfl, fun e he => ?_⟩⟩
  rwa [List.mem_singleton.1 he]

theorem emits_readRegister {r : Register} (h : ∀ v, P (.read r v)) : Emits P (readRegister r) := by
  refine ⟨fun b => ⟨[.read r (b.cpu.answer r)], Happens.one rfl rfl rfl rfl, fun e he => ?_⟩⟩
  rw [List.mem_singleton.1 he]
  exact h _

theorem emits_moveConsole {a : Word} (h : P (.console a)) : Emits P (moveConsole a) := by
  refine ⟨fun b => ⟨[.console a], Happens.one rfl rfl rfl rfl, fun e he => ?_⟩⟩
  rwa [List.mem_singleton.1 he]

end Board

end HighHalf
