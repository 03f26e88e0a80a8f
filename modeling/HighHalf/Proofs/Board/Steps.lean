import HighHalf.Space.Basic
import HighHalf.Tables.Map

/-!
# Running the steps of the kernel

A step either returns, fails for a reason its caller can act on, or stops for good. This module
says what sequences of steps do in terms of their parts, in the three layers in which the
kernel is written: on the board, on memory, and on the address space.

## Main definitions

* `Board.stored`, `Memory.stored`: what is left after a store
* `Space.withMemory`: the address space over another memory
-/

namespace HighHalf

variable {δ ε σ τ α β : Type}

/-! ## Steps that may stop -/

section Stop

variable {x : EStateM ε σ α} {f : α → EStateM ε σ β} {s s' s'' : σ} {a : α} {b : β} {e : ε}

@[simp] theorem run_pure (a : α) (s : σ) : (pure a : EStateM ε σ α) s = .ok a s := rfl

@[simp] theorem run_get (s : σ) : (get : EStateM ε σ σ) s = .ok s s := rfl

@[simp] theorem run_ite (c : Prop) [Decidable c] (x y : EStateM ε σ α) (s : σ) :
    (if c then x else y) s = if c then x s else y s := by
  split <;> rfl

theorem run_bind (x : EStateM ε σ α) (f : α → EStateM ε σ β) (s : σ) :
    (x >>= f) s = match x s with
      | .ok a s' => f a s'
      | .error e s' => .error e s' := rfl

/-- A check that is passed. -/
@[simp] theorem run_check (a : α) (s : σ) :
    (liftM (Except.ok a : Except Fatal α) : EStateM Fatal σ α) s = .ok a s := rfl

theorem run_bind_ok (h : x s = .ok a s') : (x >>= f) s = f a s' := by
  rw [run_bind, h]

theorem run_bind_stop (h : x s = .error e s') : (x >>= f) s = .error e s' := by
  rw [run_bind, h]

/-- A sequence that returns went through a middle state. -/
theorem exists_of_run_bind (h : (x >>= f) s = .ok b s'') :
    ∃ a s', x s = .ok a s' ∧ f a s' = .ok b s'' := by
  rw [run_bind] at h
  cases hx : x s with
  | ok a s' => rw [hx] at h; exact ⟨a, s', rfl, h⟩
  | error e s' => rw [hx] at h; cases h

end Stop

/-! ## Steps that may also fail -/

section Fail

variable {x : ExceptT δ (EStateM ε σ) α} {f : α → ExceptT δ (EStateM ε σ) β} {s s' s'' : σ}
  {a : α} {b : β} {d : δ} {e : ε}

@[simp] theorem run_getE (s : σ) : (get : ExceptT δ (EStateM ε σ) σ).run s = .ok (.ok s) s := rfl

@[simp] theorem run_checkE (a : α) (s : σ) :
    (liftM (Except.ok a : Except δ α) : ExceptT δ (EStateM ε σ) α).run s = .ok (.ok a) s := rfl

/-- A check that is not passed. -/
@[simp] theorem run_refusedE (d : δ) (s : σ) :
    (liftM (Except.error d : Except δ α) : ExceptT δ (EStateM ε σ) α).run s =
      .ok (.error d) s := rfl

/-- A step that cannot fail as part of one that can. -/
theorem run_lift {x : EStateM ε σ α} (h : x s = .ok a s') :
    (liftM x : ExceptT δ (EStateM ε σ) α).run s = .ok (.ok a) s' := by
  show ExceptT.lift x s = _
  exact run_bind_ok (f := fun a => (pure (.ok a) : EStateM ε σ (Except δ α))) h

theorem exists_of_lift {x : EStateM ε σ α}
    (h : (liftM x : ExceptT δ (EStateM ε σ) α).run s = .ok (.ok a) s') : x s = .ok a s' := by
  have hx : (x >>= fun a => (pure (.ok a) : EStateM ε σ (Except δ α))) s = .ok (.ok a) s' := h
  obtain ⟨a', s'', hrun, hpure⟩ := exists_of_run_bind hx
  cases hpure
  exact hrun

theorem run_bindE_ok (h : x.run s = .ok (.ok a) s') : (x >>= f).run s = (f a).run s' :=
  run_bind_ok (f := ExceptT.bindCont f) h

theorem run_bindE_fail (h : x.run s = .ok (.error d) s') : (x >>= f).run s = .ok (.error d) s' :=
  run_bind_ok (f := ExceptT.bindCont f) h

theorem run_bindE_stop (h : x.run s = .error e s') : (x >>= f).run s = .error e s' :=
  run_bind_stop (f := ExceptT.bindCont f) h

/-- A sequence that succeeds went through a middle state. -/
theorem exists_of_run_bindE (h : (x >>= f).run s = .ok (.ok b) s'') :
    ∃ a s', x.run s = .ok (.ok a) s' ∧ (f a).run s' = .ok (.ok b) s'' := by
  obtain ⟨r, s', hx, hf⟩ := exists_of_run_bind (f := ExceptT.bindCont f) h
  cases r with
  | ok a => exact ⟨a, s', hx, hf⟩
  | error d => cases hf

/-- A sequence that fails does so in its first part, or after that. -/
theorem cases_of_run_bindE (h : (x >>= f).run s = .ok (.error d) s'') :
    x.run s = .ok (.error d) s'' ∨
      ∃ a s', x.run s = .ok (.ok a) s' ∧ (f a).run s' = .ok (.error d) s'' := by
  obtain ⟨r, s', hx, hf⟩ := exists_of_run_bind (f := ExceptT.bindCont f) h
  cases r with
  | ok a => exact Or.inr ⟨a, s', hx, hf⟩
  | error d =>
    cases hf
    exact Or.inl hx

/-- A step that cannot fail does not fail as part of one that can. -/
theorem run_lift_ne_error {x : EStateM ε σ α} :
    (liftM x : ExceptT δ (EStateM ε σ) α).run s ≠ .ok (.error d) s' := by
  intro h
  have hx : (x >>= fun a => (pure (.ok a) : EStateM ε σ (Except δ α))) s = .ok (.error d) s' := h
  obtain ⟨a, s'', -, hpure⟩ := exists_of_run_bind hx
  cases hpure

end Fail

/-! ## Steps on the board -/

namespace Board

/-- The board after a store. -/
def stored (b : Board) (s : Store) : Board :=
  { b with ram := s.apply b.ram, trace := b.trace.push (.store s) }

end Board

namespace Memory

/-- Memory after a store. -/
def stored (m : Memory) (s : Store) : Memory := { m with board := m.board.stored s }

@[simp] theorem run_store (s : Store) (m : Memory) :
    (liftM (Board.store s) : MemoryM Unit) m = .ok () (m.stored s) := rfl

/-- Memory after a line of the log. -/
def noted (m : Memory) (l : Level) (c : Component) (text : String) : Memory :=
  { m with board := { m.board with log := m.board.log.push ⟨l, c, text⟩ } }

@[simp] theorem run_note (l : Level) (c : Component) (text : String) (m : Memory) :
    (liftM (Board.note l c text) : MemoryM Unit) m = .ok () (m.noted l c text) := rfl

@[simp] theorem run_updateFrames (g : Frames → Frames) (m : Memory) :
    updateFrames g m = .ok () { m with frames := g m.frames } := rfl

/-- A step on the board as a step on memory. -/
theorem run_onBoard {x : BoardM α} {m : Memory} {b : Board} {a : α} (h : x m.board = .ok a b) :
    (liftM x : MemoryM α) m = .ok a { m with board := b } := by
  show onBoard x m = _
  rw [onBoard, h]

theorem run_onBoard_stop {x : BoardM α} {m : Memory} {b : Board} {e : Fatal}
    (h : x m.board = .error e b) : (liftM x : MemoryM α) m = .error e { m with board := b } := by
  show onBoard x m = _
  rw [onBoard, h]

theorem exists_of_onBoard {x : BoardM α} {m m' : Memory} {a : α}
    (h : onBoard x m = .ok a m') : ∃ b, x m.board = .ok a b ∧ m' = { m with board := b } := by
  rw [onBoard] at h
  cases hx : x m.board with
  | ok a' b =>
    rw [hx] at h
    cases h
    exact ⟨b, rfl, rfl⟩
  | error e b =>
    rw [hx] at h
    cases h

/-- A request to the board as a request to memory. -/
theorem run_request {x : ExceptT ε BoardM α} {m : Memory} {b : Board} {r : Except ε α}
    (h : x.run m.board = .ok r b) : (request x).run m = .ok r { m with board := b } := by
  rw [request, ExceptT.run_mk, onBoard, h]

end Memory

/-! ## Steps on the address space -/

namespace Space

/-- The address space over another memory. -/
def withMemory (s : Space) (m : Memory) : Space := { s with memory := m }

variable {s s' : Space} {m m' : Memory} {b : Board} {a : α} {r : Except Fatal α}

@[simp] theorem memory_withMemory (s : Space) (m : Memory) : (s.withMemory m).memory = m := rfl

@[simp] theorem ledger_withMemory (s : Space) (m : Memory) :
    (s.withMemory m).ledger = s.ledger := rfl

theorem run_onMemory {x : EStateM ε Memory α} (h : x m = .ok a m') :
    onMemory x (s.withMemory m) = .ok a (s.withMemory m') := by
  rw [onMemory, memory_withMemory, h]
  rfl

theorem exists_of_onMemory {x : EStateM ε Memory α} (h : onMemory x s = .ok a s') :
    ∃ m, x s.memory = .ok a m ∧ s' = s.withMemory m := by
  rw [onMemory] at h
  cases hx : x s.memory with
  | ok a' m =>
    rw [hx] at h
    cases h
    exact ⟨m, rfl, rfl⟩
  | error e m =>
    rw [hx] at h
    cases h

theorem run_board {x : BoardM α} (h : x m.board = .ok a b) :
    (liftM x : SpaceM α) (s.withMemory m) = .ok a (s.withMemory { m with board := b }) :=
  run_onMemory (Memory.run_onBoard h)

theorem exists_of_board {x : BoardM α} (h : (liftM x : SpaceM α) s = .ok a s') :
    ∃ b, x s.memory.board = .ok a b ∧ s' = s.withMemory { s.memory with board := b } := by
  obtain ⟨m, hm, rfl⟩ := exists_of_onMemory (x := (liftM x : MemoryM α)) h
  obtain ⟨b, hb, rfl⟩ := Memory.exists_of_onBoard hm
  exact ⟨b, hb, rfl⟩

/-- A check that is passed has its answer. -/
theorem exists_of_check (h : (liftM r : SpaceM α) s = .ok a s') : r = .ok a ∧ s' = s := by
  cases r with
  | ok a' =>
    cases h
    exact ⟨rfl, rfl⟩
  | error e => cases h

end Space

end HighHalf
