import HighHalf.Proofs.Boot.Resolved

/-!
# Every write is read back

A processor may give anything when a register is read. So the switch relies on no register that it
has not read back: each write is answered by a read before the next step depends on it, and the
first read whose answer is not what was written stops the kernel on the spot. This module follows
the accesses of a boot, whatever the reads give and whatever way the boot ends.

## Main definitions

* `Event.accesses`: the register accesses among some events, and the moves of execution
* `Event.due`: what the next read of each register is compared with
* `Transition.arming`, `Transition.crossing`: the accesses of the switch
* `Transition.InOrder`: every access of a list was allowed by those before it
* `Transition.Runs`: what a step adds to the accesses so far, if they are in order
-/

namespace HighHalf

open Event Board

variable {σ α β δ : Type}

/-! ## What a read is compared with -/

namespace Event

/-- Whether the event reads or writes a register or moves execution. -/
def isAccess : Event → Bool
  | read .. | write .. | relocate _ => true
  | _ => false

/-- The register accesses among some events, and the moves of execution. -/
def accesses (es : List Event) : List Event := es.filter isAccess

/-- What the next read of each register is compared with after one more event. A write is
compared with itself, a move of execution asks for address resolution, and what has been read
is settled. -/
def owe (due : PerRegister (Option Word)) : Event → PerRegister (Option Word)
  | write r v => due.set r (some v)
  | relocate _ => due.set .sctlr (some Control.resolving)
  | read r _ => due.set r none
  | _ => due

/-- What the next read of each register is compared with, if it is compared at all. -/
def due (es : List Event) : PerRegister (Option Word) := es.foldl owe (.all none)

/-- The bits in which a read is compared. -/
def watched : Register → Word
  | .sctlr => Control.resolving
  | _ => Control.allBits

/-- After some events, a read of `r` is compared with `v`, and `u` does not stand the
comparison. -/
def Deviates (es : List Event) (r : Register) (v u : Word) : Prop :=
  (due es).get r = some v ∧ u &&& watched r ≠ v &&& watched r

variable {es es' : List Event} {e : Event} {r g : Register} {u v : Word}

@[simp] theorem accesses_nil : accesses [] = [] := rfl

@[simp] theorem accesses_append (es es' : List Event) :
    accesses (es ++ es') = accesses es ++ accesses es' :=
  List.filter_append ..

theorem accesses_cons_of_access (h : e.isAccess = true) (es : List Event) :
    accesses (e :: es) = e :: accesses es :=
  List.filter_cons_of_pos h

theorem accesses_of_silent (h : ∀ e ∈ es, e.isAccess = false) : accesses es = [] :=
  List.filter_eq_nil_iff.2 fun e he => by simp [h e he]

theorem Builds.silent (h : e.Builds) : e.isAccess = false := by
  cases e with
  | store | dsb | isb | clean => rfl
  | _ => exact absurd h id

/-- Only accesses change what is due. -/
theorem due_accesses (es : List Event) : due (accesses es) = due es := by
  have hfold : ∀ f, (accesses es).foldl owe f = es.foldl owe f := by
    induction es with
    | nil => exact fun _ => rfl
    | cons e es ih =>
      intro f
      cases e <;> exact ih _
  exact hfold _

theorem due_snoc (es : List Event) (e : Event) : due (es ++ [e]) = owe (due es) e :=
  List.foldl_append

theorem watched_of_ne (h : r ≠ .sctlr) : watched r = Control.allBits := by
  cases r <;> first | rfl | exact absurd rfl h

end Event

/-- A cut of a list is at its last element or before it. -/
theorem cut_append_singleton {pre post xs : List α} {e y : α} (h : xs ++ [y] = pre ++ e :: post) :
    (post = [] ∧ pre = xs ∧ e = y) ∨ ∃ post', post = post' ++ [y] ∧ xs = pre ++ e :: post' := by
  rcases List.eq_nil_or_concat post with rfl | ⟨post', z, rfl⟩
  · obtain ⟨rfl, hlast⟩ := List.append_inj' h rfl
    cases hlast
    exact Or.inl ⟨rfl, rfl, rfl⟩
  · rw [List.concat_eq_append, ← List.cons_append, ← List.append_assoc] at h
    obtain ⟨rfl, hlast⟩ := List.append_inj' h rfl
    cases hlast
    exact Or.inr ⟨post', List.concat_eq_append, rfl⟩

namespace Transition

/-! ## The accesses of the switch -/

variable {c : MemoryConfig} {l : ImageLayout} {roots : Roots} {done pre post es : List Event}
  {e : Event} {r : Register} {u v : Word}

/-- The accesses that make everything ready for address resolution. -/
def arming (c : MemoryConfig) (l : ImageLayout) (roots : Roots) : List Event :=
  [.write .vbar l.vectors.val, .read .vbar l.vectors.val,
    .write .mair Control.attributes, .read .mair Control.attributes,
    .write .tcr (Control.walkControl c.width .dual),
    .read .tcr (Control.walkControl c.width .dual),
    .write .ttbr0 roots.low.val, .write .ttbr1 roots.high.val,
    .read .ttbr0 roots.low.val, .read .ttbr1 roots.high.val]

/-- The accesses from the moment address resolution has been turned on: the control register gave
`on`, and after the move of execution `there`; the walks were `walks`. -/
def crossing (c : MemoryConfig) (l : ImageLayout) (on there walks : Word) : List Event :=
  [.read .sctlr on, .relocate c.highBase, .read .sctlr there,
    .write .vbar (l.vectors.val ||| c.highBase), .read .vbar (l.vectors.val ||| c.highBase),
    .read .tcr walks, .write .tcr (Control.withWalks walks .highOnly),
    .read .tcr (Control.withWalks walks .highOnly)]

/-- Address resolution is turned on only after everything has been made ready, and no read gives
anything but what it is compared with. -/
structure Allowed (c : MemoryConfig) (l : ImageLayout) (pre : List Event) (e : Event) : Prop where
  armed : ∀ v, e = .write .sctlr v → ∃ roots before, v = before ||| Control.resolving ∧
    pre = arming c l roots ++ [.read .sctlr before]
  agrees : ∀ r v u, e = .read r u → ¬ Deviates pre r v u

/-- Every access of the list was allowed by those before it. -/
def InOrder (c : MemoryConfig) (l : ImageLayout) (done : List Event) : Prop :=
  ∀ pre e post, done = pre ++ e :: post → Allowed c l pre e

/-- The last of the events is a read that does not give what it is compared with, and this is
why the kernel stopped. -/
def Foiled (c : MemoryConfig) (l : ImageLayout) (done : List Event) (stop : Fatal)
    (es : List Event) : Prop :=
  ∃ pre r v u, es = pre ++ [.read r u] ∧ InOrder c l (done ++ accesses pre) ∧
    Deviates (done ++ accesses pre) r v u ∧
    (stop = .readback r v u ∨ r = .sctlr ∧ stop = .resolvingOff u)

theorem inOrder_nil : InOrder c l [] := by
  intro pre e post h
  cases pre <;> cases h

theorem InOrder.snoc (h : InOrder c l done) (he : Allowed c l done e) :
    InOrder c l (done ++ [e]) := by
  intro pre e' post hcut
  rcases cut_append_singleton hcut with ⟨-, rfl, rfl⟩ | ⟨post', -, hcut'⟩
  · exact he
  · exact h pre e' post' hcut'

theorem allowed_write (h : r ≠ .sctlr) : Allowed c l done (.write r v) where
  armed := by
    rintro u heq
    cases heq
    exact absurd rfl h
  agrees := nofun

theorem allowed_read (h : ∀ v, ¬ Deviates done r v u) : Allowed c l done (.read r u) where
  armed := nofun
  agrees := by
    rintro r v u heq
    cases heq
    exact h v

theorem allowed_relocate (d : Word) : Allowed c l done (.relocate d) := ⟨nofun, nofun⟩

/-! ## What a step adds to the accesses -/

/-- How a step ended that added `es` to accesses that were in order: if it returned, they are in
order still, and `J` holds of all of them; if it stopped, they are in order, or the last read
is to blame. -/
def Ended (c : MemoryConfig) (l : ImageLayout) (done : List Event) (J : α → List Event → Prop) :
    EStateM.Result Fatal σ α → List Event → Prop
  | .ok a _, es => InOrder c l (done ++ accesses es) ∧ J a (done ++ accesses es)
  | .error stop _, es => InOrder c l (done ++ accesses es) ∨ Foiled c l done stop es

/-- What is added after `es` is added together with it. -/
theorem Ended.after {J : α → List Event → Prop} {res : EStateM.Result Fatal σ α}
    {es' : List Event} (h : Ended c l (done ++ accesses es) J res es') :
    Ended c l done J res (es ++ es') := by
  have hassoc : ∀ xs, done ++ accesses (es ++ xs) = done ++ accesses es ++ accesses xs := by
    intro xs
    rw [accesses_append, List.append_assoc]
  cases res with
  | ok a s =>
    rw [Ended, hassoc]
    exact h
  | error stop s =>
    rw [Ended, hassoc]
    refine h.imp id ?_
    rintro ⟨pre, r, v, u, rfl, hpre, hdev, hstop⟩
    refine ⟨es ++ pre, r, v, u, (List.append_assoc ..).symm, ?_, ?_, hstop⟩
    · rwa [hassoc]
    · rwa [hassoc]

theorem InOrder.allowed (h : InOrder c l (accesses (pre ++ e :: post)))
    (haccess : e.isAccess = true) : Allowed c l (accesses pre) e :=
  h _ e (accesses post) (by rw [accesses_append, accesses_cons_of_access haccess])

/-- Each access of a whole run was allowed, unless it is the last thing that happened and the
reason why the kernel stopped. -/
theorem Ended.allowed {J : α → List Event → Prop} {res : EStateM.Result Fatal σ α}
    (h : Ended c l [] J res (pre ++ e :: post)) (haccess : e.isAccess = true) :
    Allowed c l (accesses pre) e ∨ post = [] ∧ ∃ r v u, e = .read r u ∧
      Deviates (accesses pre) r v u ∧ ∃ s, res = .error (.readback r v u) s ∨
        r = .sctlr ∧ res = .error (.resolvingOff u) s := by
  cases res with
  | ok a s => exact Or.inl (h.1.allowed haccess)
  | error stop s =>
    rcases h with horder | ⟨pre', r, v, u, hcut, horder, hdev, hstop⟩
    · exact Or.inl (horder.allowed haccess)
    · rcases cut_append_singleton hcut.symm with ⟨rfl, rfl, rfl⟩ | ⟨post', -, rfl⟩
      · refine Or.inr ⟨rfl, r, v, u, rfl, hdev, s, ?_⟩
        rcases hstop with rfl | ⟨hr, rfl⟩
        · exact Or.inl rfl
        · exact Or.inr ⟨hr, rfl⟩
      · exact Or.inl (horder.allowed haccess)

/-- Whatever way a step ends that begins after the accesses `done`, it keeps their order, and `J`
holds of all accesses if it returns. -/
structure Runs [OnBoard σ] (c : MemoryConfig) (l : ImageLayout) (done : List Event)
    (J : α → List Event → Prop) (x : EStateM Fatal σ α) : Prop where
  ends : InOrder c l done → ∀ s, ∃ es,
    Happens (OnBoard.board s) (OnBoard.board (leftBy (x s))) es ∧ Ended c l done J (x s) es

section Runs

variable [OnBoard σ] {J : α → List Event → Prop} {K : β → List Event → Prop}
  {x y : EStateM Fatal σ α} {f : α → EStateM Fatal σ β}

theorem Runs.mono {J' : α → List Event → Prop} (h : Runs c l done J x)
    (hJ : ∀ a done', J a done' → J' a done') : Runs c l done J' x := by
  refine ⟨fun horder s => ?_⟩
  obtain ⟨es, hes, hended⟩ := h.ends horder s
  refine ⟨es, hes, ?_⟩
  cases hx : x s with
  | ok a s' =>
    rw [hx] at hended
    exact ⟨hended.1, hJ _ _ hended.2⟩
  | error stop s' =>
    rw [hx] at hended
    exact hended

/-- A step without an access adds nothing. -/
theorem runs_silent (h : Emits (fun e => e.isAccess = false) x) :
    Runs c l done (fun _ done' => done' = done) x := by
  refine ⟨fun horder s => ?_⟩
  obtain ⟨es, hes, hsilent⟩ := h.happens s
  refine ⟨es, hes, ?_⟩
  have hnone : done ++ accesses es = done := by rw [accesses_of_silent hsilent, List.append_nil]
  cases x s with
  | ok a s' => exact ⟨by rwa [hnone], hnone⟩
  | error stop s' => exact Or.inl (by rwa [hnone])

theorem runs_pure {a : α} (h : J a done) : Runs c l done J (pure a : EStateM Fatal σ α) := by
  refine ⟨fun horder s => ⟨[], Happens.refl _, ?_⟩⟩
  rw [run_pure, Ended, accesses_nil, List.append_nil]
  exact ⟨horder, h⟩

theorem runs_throw (stop : Fatal) : Runs c l done J (throw stop : EStateM Fatal σ α) := by
  refine ⟨fun horder s => ⟨[], Happens.refl _, Or.inl ?_⟩⟩
  rwa [accesses_nil, List.append_nil]

theorem runs_bind (hx : Runs c l done J x) (hf : ∀ a done', J a done' → Runs c l done' K (f a)) :
    Runs c l done K (x >>= f) := by
  refine ⟨fun horder s => ?_⟩
  obtain ⟨es, hes, hended⟩ := hx.ends horder s
  rw [run_bind]
  cases hxs : x s with
  | error stop s' =>
    rw [hxs] at hes hended
    exact ⟨es, hes, hended⟩
  | ok a s' =>
    rw [hxs] at hes hended
    obtain ⟨es', hes', hended'⟩ := (hf a _ hended.2).ends hended.1 s'
    exact ⟨es ++ es', hes.trans hes', hended'.after⟩

/-- After a step without an access. -/
theorem runs_after (hx : Emits (fun e => e.isAccess = false) x)
    (hf : ∀ a, Runs c l done K (f a)) : Runs c l done K (x >>= f) := by
  refine runs_bind (runs_silent hx) fun a done' hdone => ?_
  rw [hdone]
  exact hf a

end Runs

/-! ## Steps that may also fail -/

/-- What holds if a step does not fail. -/
def Reached (J : α → List Event → Prop) : Except δ α → List Event → Prop
  | .ok a, done => J a done
  | .error _, _ => True

section RunsE

variable [OnBoard σ] {J : α → List Event → Prop} {K : β → List Event → Prop}
  {x : ExceptT δ (EStateM Fatal σ) α} {f : α → ExceptT δ (EStateM Fatal σ) β}

theorem runs_silentE (h : Emits (fun e => e.isAccess = false) x.run) :
    Runs c l done (Reached fun _ done' => done' = done) x.run := by
  refine (runs_silent h).mono fun r done' hdone => ?_
  cases r with
  | ok a => exact hdone
  | error d => trivial

theorem runs_bindE (hx : Runs c l done (Reached J) x.run)
    (hf : ∀ a done', J a done' → Runs c l done' (Reached K) (f a).run) :
    Runs c l done (Reached K) (x >>= f).run := by
  refine runs_bind (f := ExceptT.bindCont f) hx fun r done' hr => ?_
  cases r with
  | ok a => exact hf a done' hr
  | error d => exact runs_pure trivial

theorem runs_afterE (hx : Emits (fun e => e.isAccess = false) x.run)
    (hf : ∀ a, Runs c l done (Reached K) (f a).run) :
    Runs c l done (Reached K) (x >>= f).run := by
  refine runs_bindE (runs_silentE hx) fun a done' hdone => ?_
  rw [hdone]
  exact hf a

theorem runs_liftE {x : EStateM Fatal σ α} (h : Runs c l done J x) :
    Runs c l done (Reached J) (liftM x : ExceptT δ (EStateM Fatal σ) α).run := by
  show Runs c l done (Reached J) (x >>= fun a => (pure (.ok a) : EStateM Fatal σ (Except δ α)))
  exact runs_bind h fun a done' ha => runs_pure ha

end RunsE

/-! ## Steps of the board in the layers above -/

theorem runs_onBoard {J : α → List Event → Prop} {x : BoardM α} (h : Runs c l done J x) :
    Runs c l done J (Memory.onBoard x) := by
  refine ⟨fun horder ⟨b, f⟩ => ?_⟩
  obtain ⟨es, hes, hended⟩ := h.ends horder b
  refine ⟨es, ?_, ?_⟩
  · rw [Memory.onBoard]
    cases hx : x b with
    | ok a b' => rw [hx] at hes; exact hes
    | error stop b' => rw [hx] at hes; exact hes
  · rw [Memory.onBoard]
    cases hx : x b with
    | ok a b' => rw [hx] at hended; exact hended
    | error stop b' => rw [hx] at hended; exact hended

theorem runs_onMemory {J : α → List Event → Prop} {x : MemoryM α} (h : Runs c l done J x) :
    Runs c l done J (Space.onMemory x) := by
  refine ⟨fun horder ⟨config, layout, memory, ledger, live, roots, phase, mode, abort⟩ => ?_⟩
  obtain ⟨es, hes, hended⟩ := h.ends horder memory
  refine ⟨es, ?_, ?_⟩
  · rw [Space.onMemory]
    cases hx : x memory with
    | ok a m => rw [hx] at hes; exact hes
    | error stop m => rw [hx] at hes; exact hes
  · rw [Space.onMemory]
    cases hx : x memory with
    | ok a m => rw [hx] at hended; exact hended
    | error stop m => rw [hx] at hended; exact hended

theorem runs_board {J : α → List Event → Prop} {x : BoardM α} (h : Runs c l done J x) :
    Runs c l done J (liftM x : SpaceM α) :=
  runs_onMemory (runs_onBoard h)

/-! ## Writing the registers -/

theorem runs_write (he : Allowed c l done (.write r v)) :
    Runs c l done (fun _ done' => done' = done ++ [.write r v]) (Control.write r v) :=
  ⟨fun horder _ => ⟨[.write r v], Happens.one rfl rfl rfl rfl, horder.snoc he, rfl⟩⟩

/-- A read that is not compared with anything. -/
theorem runs_look (hdue : (due done).get r = none) :
    Runs c l done (fun u done' => done' = done ++ [.read r u]) (readRegister r) := by
  refine ⟨fun horder b => ⟨[.read r (b.cpu.answer r)], Happens.one rfl rfl rfl rfl, ?_⟩⟩
  refine ⟨horder.snoc (allowed_read fun v hdev => ?_), rfl⟩
  rw [Deviates, hdue] at hdev
  cases hdev.1

/-- A read that is compared with `v`: what does not stand the comparison stops the kernel before
anything else happens. -/
theorem runs_compare {J : α → List Event → Prop} {p : Word → Prop} [DecidablePred p]
    {fail go : Word → BoardM α} (hdue : (due done).get r = some v)
    (hp : ∀ u, p u ↔ u &&& watched r ≠ v &&& watched r)
    (hfail : ∀ u b, ∃ stop b', fail u b = .error stop b' ∧ Happens b b' [] ∧
      (stop = .readback r v u ∨ r = .sctlr ∧ stop = .resolvingOff u))
    (hgo : ∀ u, u &&& watched r = v &&& watched r → Runs c l (done ++ [.read r u]) J (go u)) :
    Runs c l done J (readRegister r >>= fun u => if p u then fail u else go u) := by
  refine ⟨fun horder b => ?_⟩
  obtain ⟨u, b₁, hread⟩ : ∃ u b₁, readRegister r b = .ok u b₁ := ⟨_, _, rfl⟩
  have h₁ := (Control.happens_of_read hread).2
  rw [run_bind_ok hread]
  by_cases hu : p u
  · obtain ⟨stop, b₂, hstop, h₂, hblame⟩ := hfail u b₁
    rw [if_pos hu, hstop]
    refine ⟨_, h₁.trans h₂, Or.inr ⟨[], r, v, u, rfl, ?_, ?_, hblame⟩⟩
    · rwa [accesses_nil, List.append_nil]
    · rw [accesses_nil, List.append_nil]
      exact ⟨hdue, (hp u).1 hu⟩
  · have hstands := not_not.1 (mt (hp u).2 hu)
    rw [if_neg hu]
    have horder₁ : InOrder c l (done ++ [.read r u]) := by
      refine horder.snoc (allowed_read fun v' hdev => ?_)
      rw [Deviates, hdue, Option.some_inj] at hdev
      obtain ⟨rfl, hne⟩ := hdev
      exact hne hstands
    obtain ⟨es, hes, hended⟩ := (hgo u hstands).ends horder₁ b₁
    have hafter : Ended c l (done ++ accesses [.read r u]) J _ es := hended
    exact ⟨_, h₁.trans hes, hafter.after⟩

theorem runs_verify {mask : Word} (hdue : (due done).get r = some v) (hmask : watched r = mask) :
    Runs c l done (fun _ done' => ∃ u, u &&& mask = v &&& mask ∧ done' = done ++ [.read r u])
      (Control.verify r v mask) := by
  subst hmask
  unfold Control.verify
  refine runs_compare hdue (fun u => Iff.rfl) (fun u b => ?_) fun u hu => runs_pure ⟨u, hu, rfl⟩
  exact ⟨_, _, rfl, ⟨by rw [List.append_nil], rfl, rfl, rfl⟩, Or.inl rfl⟩

theorem and_allBits (v : Word) : v &&& Control.allBits = v := UInt64.and_neg_one

/-- A register is read back whole. -/
theorem runs_verifyAll (hr : r ≠ .sctlr) (hdue : (due done).get r = some v) :
    Runs c l done (fun _ done' => done' = done ++ [.read r v])
      (Control.verify r v Control.allBits) := by
  refine (runs_verify hdue (watched_of_ne hr)).mono fun _ done' => ?_
  rintro ⟨u, hu, rfl⟩
  rw [and_allBits, and_allBits] at hu
  rw [hu]

theorem silent_isb : Emits (fun e => e.isAccess = false) isb :=
  emits_emit rfl (fun _ => rfl) fun _ => rfl

theorem silent_dsb (domain : Shareability) : Emits (fun e => e.isAccess = false) (dsb domain) :=
  emits_emit rfl (fun _ => rfl) fun _ => rfl

theorem runs_writeVerified (hr : r ≠ .sctlr) :
    Runs c l done (fun _ done' => done' = done ++ [.write r v, .read r v])
      (Control.writeVerified r v) := by
  unfold Control.writeVerified
  refine runs_bind (runs_write (allowed_write hr)) fun _ done' hdone => ?_
  subst hdone
  refine runs_after silent_isb fun _ => (runs_verifyAll hr ?_).mono fun _ done' hdone => ?_
  · rw [due_snoc]
    exact PerRegister.get_set_self ..
  · rw [hdone, List.append_assoc]
    rfl

theorem runs_programWalks (width : VaWidth) (walks : Walks) :
    Runs c l done (fun _ done' => done' = done ++ [.write .tcr (Control.walkControl width walks),
      .read .tcr (Control.walkControl width walks)]) (Control.programWalks width walks) := by
  unfold Control.programWalks
  refine runs_bind (runs_writeVerified (by decide)) fun _ done' hdone => ?_
  exact (runs_silent (emits_note ..)).mono fun _ done'' hdone' => hdone'.trans hdone

/-- The two bases are read back after both of them have been written. -/
theorem runs_setRoots (low high : PhysAddr) :
    Runs c l done (Reached fun _ done' => done' = done ++ [.write .ttbr0 low.val,
      .write .ttbr1 high.val, .read .ttbr0 low.val, .read .ttbr1 high.val])
      (Control.setRoots low high).run := by
  unfold Control.setRoots
  split
  · exact runs_afterE (emits_lift (emits_note ..)) fun _ => runs_pure trivial
  · refine runs_bindE (runs_liftE (runs_write (allowed_write (by decide)))) fun _ done₁ h₁ => ?_
    subst h₁
    refine runs_bindE (runs_liftE (runs_write (allowed_write (by decide)))) fun _ done₂ h₂ => ?_
    subst h₂
    refine runs_afterE (emits_lift silent_isb) fun _ => ?_
    refine runs_bindE (runs_liftE (runs_verifyAll (v := low.val) (by decide) ?_))
      fun _ done₃ h₃ => ?_
    · rw [due_snoc, due_snoc]
      rfl
    subst h₃
    refine runs_liftE ((runs_verifyAll (v := high.val) (by decide) ?_).mono fun _ done₄ h₄ => ?_)
    · rw [due_snoc, due_snoc, due_snoc]
      rfl
    · simpa using h₄

/-- Address resolution is turned on once everything has been made ready, and read back. -/
theorem runs_enable (hdone : done = arming c l roots) :
    Runs c l done (fun _ done' => ∃ before on, on &&& Control.resolving = Control.resolving ∧
      done' = done ++ [.read .sctlr before, .write .sctlr (before ||| Control.resolving),
        .read .sctlr on]) Control.enable := by
  unfold Control.enable
  refine runs_bind (runs_look (by rw [hdone]; rfl)) fun before done₁ h₁ => ?_
  subst h₁
  refine runs_bind (runs_write ?_) fun _ done₂ h₂ => ?_
  · refine ⟨fun v hv => ?_, nofun⟩
    cases hv
    exact ⟨roots, before, rfl, by rw [hdone]⟩
  subst h₂
  refine runs_after silent_isb fun _ => (runs_verify ?_ rfl).mono fun _ done₃ h₃ => ?_
  · rw [due_snoc]
    rfl
  · obtain ⟨on, hon, rfl⟩ := h₃
    have hset : (before ||| Control.resolving) &&& Control.resolving = Control.resolving :=
      Word.or_and_self ..
    exact ⟨before, on, hon.trans hset, by simp⟩

/-- Everything has been made ready, and then address resolution was turned on. -/
def Started (c : MemoryConfig) (l : ImageLayout) (roots : Roots) (done : List Event) : Prop :=
  ∃ before on, on &&& Control.resolving = Control.resolving ∧ done = arming c l roots ++
    [.read .sctlr before, .write .sctlr (before ||| Control.resolving), .read .sctlr on]

/-- Everything up to address resolution being on. -/
theorem runs_apply (hdone : done = [.write .vbar l.vectors.val, .read .vbar l.vectors.val]) :
    Runs c l done (Reached fun _ => Started c l roots)
      (Control.apply roots.low roots.high c.width .dual).run := by
  unfold Control.apply
  refine runs_bindE (runs_liftE (runs_writeVerified (by decide))) fun _ done₁ h₁ => ?_
  refine runs_bindE (runs_liftE (runs_programWalks ..)) fun _ done₂ h₂ => ?_
  refine runs_bindE (runs_setRoots ..) fun _ done₃ h₃ => ?_
  refine runs_afterE (emits_lift (silent_dsb _)) fun _ => ?_
  refine runs_afterE (emits_lift silent_isb) fun _ => ?_
  refine runs_afterE (emits_lift (Control.emits_dropCached (by decide))) fun _ => ?_
  have harmed : done₃ = arming c l roots := by
    rw [h₃, h₂, h₁, hdone]
    rfl
  refine runs_bindE (runs_liftE (runs_enable harmed)) fun _ done₄ h₄ => ?_
  refine runs_afterE (emits_lift silent_isb) fun _ => ?_
  refine runs_afterE (emits_lift (silent_dsb _)) fun _ => ?_
  refine runs_afterE (emits_lift silent_isb) fun _ => ?_
  refine runs_liftE ((runs_silent (emits_note ..)).mono fun _ done₅ h₅ => ?_)
  rw [harmed] at h₄
  rw [h₅]
  exact h₄

/-! ## The move -/

/-- Turning address resolution on, with the vectors at their physical address. -/
theorem runs_enableAll :
    Runs c l [] (Reached fun _ => Started c l roots) (enable c l roots).run := by
  unfold enable
  refine runs_bindE (runs_liftE (runs_board (runs_writeVerified (by decide)))) fun _ done₁ h₁ => ?_
  refine runs_bindE (runs_liftE (runs_onMemory (runs_onBoard (runs_apply h₁)))) fun r done₂ h₂ => ?_
  cases r with
  | error e => exact runs_pure trivial
  | ok u =>
    refine runs_liftE ((runs_silent (emits_board (emits_advance ..))).mono fun _ done₃ h₃ => ?_)
    rw [h₃]
    exact h₂

/-- Nothing is accessed until the vectors are set. -/
theorem runs_prepare :
    Runs c l [] (Reached (Started c l)) (prepare c l).run := by
  unfold prepare
  split
  · exact runs_pure trivial
  refine runs_afterE ((emits_buildRoots c).mono fun _ => Builds.silent) fun roots => ?_
  refine runs_afterE ((emits_mapDual c l roots).mono fun _ => Builds.silent) fun _ => ?_
  refine runs_afterE (emits_checkAll c l roots) fun _ => ?_
  exact runs_bindE runs_enableAll fun _ done' h => runs_pure h

/-- After execution has been moved, address resolution has to be on. -/
theorem runs_arrive (uart : Word) (hdue : (due done).get .sctlr = some Control.resolving) :
    Runs c l done (fun _ done' => ∃ there, there &&& Control.resolving = Control.resolving ∧
      done' = done ++ [.read .sctlr there]) (arrive uart) := by
  have hself : Control.resolving &&& Control.resolving = Control.resolving := by decide
  unfold arrive
  refine runs_compare hdue (fun u => ?_) (fun u b => ?_) fun there hthere => ?_
  · rw [watched, hself]
  · exact ⟨_, _, rfl, ⟨by rw [List.append_nil], rfl, rfl, rfl⟩, Or.inr ⟨rfl, rfl⟩⟩
  · rw [watched, hself] at hthere
    refine (runs_silent ?_).mono fun _ done' hdone => ⟨there, hthere, hdone⟩
    have hprobe : ∀ text, Emits (fun e => e.isAccess = false) (probe uart text) := fun text =>
      emits_bind (emits_emit rfl (fun _ => rfl) fun _ => rfl) fun _ =>
        emits_bind emits_get fun _ => emits_pure _
    have hlast : Emits (fun e => e.isAccess = false) (do
        let old ← consoleBase
        moveConsole uart
        let shownOld := old.hex
        let shownNew := uart.hex
        note .info .transition s!"console moved {shownOld} -> {shownNew}") :=
      emits_bind (emits_bind emits_get fun _ => emits_pure _) fun old =>
        emits_bind (emits_moveConsole rfl) fun _ => emits_note ..
    refine emits_bind (hprobe _) fun ready => emits_ite ?_ hlast
    exact emits_bind (emits_note ..) fun _ => hlast

theorem runs_moveExecution :
    Runs c l done (fun _ done' => ∃ there, there &&& Control.resolving = Control.resolving ∧
      done' = done ++ [.relocate c.highBase, .read .sctlr there]) (moveExecution c) := by
  have hrelocate : Runs c l done (fun _ done' => done' = done ++ [.relocate c.highBase])
      (relocate c.highBase) :=
    ⟨fun horder _ => ⟨[.relocate c.highBase], Happens.one rfl rfl rfl rfl,
      horder.snoc (allowed_relocate _), rfl⟩⟩
  unfold moveExecution
  refine runs_bind hrelocate fun d done₁ h₁ => ?_
  subst h₁
  refine runs_bind (runs_arrive _ ?_) fun _ done₂ h₂ => ?_
  · rw [due_snoc]
    rfl
  refine runs_after (emits_advance ..) fun _ => runs_pure ?_
  obtain ⟨there, hthere, rfl⟩ := h₂
  exact ⟨there, hthere, by simp⟩

theorem runs_moveVectors :
    Runs c l done (fun _ done' => done' = done ++ [.write .vbar (l.vectors.val ||| c.highBase),
      .read .vbar (l.vectors.val ||| c.highBase)]) (moveVectors c l) := by
  unfold moveVectors
  refine runs_bind (runs_writeVerified (by decide)) fun _ done₁ h₁ => ?_
  exact (runs_silent (emits_advance ..)).mono fun _ done₂ h₂ => h₂.trans h₁

/-- Leaving the low half behind reads the walks, changes them and reads them back. -/
theorem runs_collapse (d : Word) (hdue : (due done).get .tcr = none) :
    Runs c l done (fun _ done' => ∃ walks, done' = done ++ [.read .tcr walks,
      .write .tcr (Control.withWalks walks .highOnly),
      .read .tcr (Control.withWalks walks .highOnly)]) (collapse c l d) := by
  have hswitch : Runs c l done (fun _ done' => ∃ walks, done' = done ++ [.read .tcr walks,
      .write .tcr (Control.withWalks walks .highOnly),
      .read .tcr (Control.withWalks walks .highOnly)]) (Control.switchWalks .highOnly) := by
    refine runs_bind (runs_look hdue) fun walks done₁ h₁ => ?_
    refine (runs_writeVerified (by decide)).mono fun _ done₂ h₂ => ⟨walks, ?_⟩
    rw [h₂, h₁, List.append_assoc]
    rfl
  unfold collapse
  refine runs_after emits_get fun s => ?_
  refine runs_after (emits_board ?_) fun there => ?_
  · exact emits_bind (emits_follow rfl) fun _ => emits_bind emits_get fun _ => emits_pure _
  refine runs_after (emits_onMemory (emits_shiftWindow _)) fun _ => ?_
  refine runs_after emits_get fun s => ?_
  refine runs_after (emits_board (Relocations.emits_rebase (fun _ => rfl) ..)) fun _ => ?_
  refine runs_after emits_get fun s => ?_
  refine runs_after (emits_board (emits_followNames (fun _ => rfl) _)) fun _ => ?_
  refine runs_bind (runs_board hswitch) fun _ done₁ h₁ => ?_
  refine runs_after (emits_board (Control.emits_dropCached (by decide))) fun _ => ?_
  refine runs_after (emits_of_still fun _ => rfl) fun _ => ?_
  refine (runs_silent (emits_board (emits_advance ..))).mono fun _ done₂ h₂ => ?_
  rw [h₂]
  exact h₁

/-- The accesses of a whole switch. -/
def Finished (c : MemoryConfig) (l : ImageLayout) (done : List Event) : Prop :=
  ∃ roots before on there walks, on &&& Control.resolving = Control.resolving ∧
    there &&& Control.resolving = Control.resolving ∧
    done = arming c l roots ++ .read .sctlr before ::
      .write .sctlr (before ||| Control.resolving) :: crossing c l on there walks

theorem runs_complete (h : Started c l roots done) :
    Runs c l done (fun _ => Finished c l) (complete c l) := by
  obtain ⟨before, on, hon, rfl⟩ := h
  unfold complete
  refine runs_bind (runs_board runs_moveExecution) fun d done₁ h₁ => ?_
  refine runs_after (emits_board (emits_followHeld (fun _ => rfl) _)) fun _ => ?_
  refine runs_bind (runs_board runs_moveVectors) fun _ done₂ h₂ => ?_
  obtain ⟨there, hthere, rfl⟩ := h₁
  subst h₂
  refine runs_bind (runs_collapse d rfl) fun _ done₃ h₃ => runs_pure ?_
  obtain ⟨walks, rfl⟩ := h₃
  exact ⟨roots, before, on, there, walks, hon, hthere, by simp [crossing]⟩

theorem runs_run : Runs c l [] (Reached fun _ => Finished c l) (run c l).run := by
  unfold run
  refine runs_bindE runs_prepare fun roots done₁ h₁ => ?_
  refine runs_bindE (runs_liftE (runs_complete h₁)) fun d done₂ h₂ => ?_
  exact runs_pure h₂

end Transition

namespace Space

open Transition

variable {c : MemoryConfig} {l : ImageLayout} {s : Space} {done : List Event}

/-- Settling for physical addresses sets the vectors once more. -/
theorem runs_enterBypass (a : Abort) :
    Runs c l done (fun _ _ => True) (enterBypass a) := by
  unfold enterBypass
  refine runs_after (emits_board (emits_note ..)) fun _ => ?_
  refine runs_after (emits_board (emits_stepTo ..)) fun phase => ?_
  refine runs_after (emits_of_still fun _ => rfl) fun _ => ?_
  refine runs_after emits_get fun s => ?_
  exact (runs_board (runs_writeVerified (by decide))).mono fun _ _ _ => trivial

/-- The accesses of a first boot. -/
theorem ended_boot (hmode : s.mode = .unsettled) : ∃ es,
    Happens s.memory.board (leftBy (boot s)).memory.board es ∧
      Ended s.config s.layout [] (fun mode done => mode = .resolved →
        Finished s.config s.layout done) (boot s) es := by
  unfold boot
  rw [run_bind_ok (run_get s), if_neg (not_not_intro hmode), run_bind_ok (run_get s),
    run_bind_ok (run_get s)]
  refine Runs.ends ?_ inOrder_nil s
  refine runs_after ((emits_onMemory (Memory.emits_setup _)).mono fun _ => Builds.silent)
    fun r => ?_
  cases r with
  | error e => exact runs_throw _
  | ok u =>
    refine runs_bind runs_run fun r done h => ?_
    cases r with
    | ok arrival =>
      have henter : Emits (fun e => e.isAccess = false) (enterHighHalf arrival) := by
        refine emits_bind (emits_board (emits_follow rfl)) fun _ => ?_
        refine emits_bind (emits_of_still fun _ => rfl) fun _ => ?_
        exact emits_bind emits_get fun s => emits_board (emits_note ..)
      refine runs_after henter fun _ => runs_after (emits_of_still fun _ => rfl) fun _ => ?_
      exact runs_pure fun _ => h
    | error a =>
      refine runs_after (emits_board (emits_note ..)) fun _ => ?_
      refine runs_bind (runs_enterBypass a) fun _ done' _ => ?_
      exact runs_after (emits_of_still fun _ => rfl) fun _ => runs_pure nofun

/-- On a processor whose reads may give anything, a boot turns address resolution on only after
each register of the switch has been read back and gave what was written, and it ends in the high
half only after the control register gave that address resolution is on, before and after the move
of execution, and the two registers that were changed after it gave what was written. The first
read that does not stand its comparison is the last thing that happens, and stops the kernel. -/
theorem boot_readback (hmode : s.mode = .unsettled) : ∃ es,
    Happens s.memory.board (leftBy (boot s)).memory.board es ∧
      (∀ pre v post, es = pre ++ .write .sctlr v :: post → ∃ roots before,
        v = before ||| Control.resolving ∧
          accesses pre = arming s.config s.layout roots ++ [.read .sctlr before]) ∧
      (∀ s', boot s = .ok .resolved s' → ∃ roots before on there walks,
        on &&& Control.resolving = Control.resolving ∧
          there &&& Control.resolving = Control.resolving ∧
          accesses es = arming s.config s.layout roots ++ .read .sctlr before ::
            .write .sctlr (before ||| Control.resolving) ::
              crossing s.config s.layout on there walks) ∧
      ∀ pre r v u post, es = pre ++ .read r u :: post → Deviates pre r v u → post = [] ∧
        ∃ s', boot s = .error (.readback r v u) s' ∨
          r = .sctlr ∧ boot s = .error (.resolvingOff u) s' := by
  obtain ⟨es, hes, hended⟩ := ended_boot hmode
  refine ⟨es, hes, ?_, ?_, ?_⟩
  · rintro pre v post rfl
    rcases hended.allowed rfl with hallowed | ⟨-, r, v', u, hread, -⟩
    · exact hallowed.armed v rfl
    · cases hread
  · intro s' hrun
    rw [hrun] at hended
    exact hended.2 rfl
  · rintro pre r v u post rfl hdev
    rw [Deviates, ← due_accesses] at hdev
    rcases hended.allowed rfl with hallowed | ⟨hpost, r', v', u', hread, hdev', s', hstop⟩
    · exact absurd hdev (hallowed.agrees r v u rfl)
    · cases hread
      have hv : v = v' := Option.some_inj.1 (hdev.1.symm.trans hdev'.1)
      subst hv
      exact ⟨hpost, s', hstop⟩

theorem boot_readback_sample :
    ∃ s es roots before on there walks,
      boot (fresh sampleConfig SampleBoard.layout sampleBoard .identity) = .ok .resolved s ∧
        (fresh sampleConfig SampleBoard.layout sampleBoard .identity).mode = .unsettled ∧
        s.memory.board.trace.toList = es ∧
        on &&& Control.resolving = Control.resolving ∧
        there &&& Control.resolving = Control.resolving ∧
        accesses es = arming sampleConfig SampleBoard.layout roots ++ .read .sctlr before ::
          .write .sctlr (before ||| Control.resolving) ::
            crossing sampleConfig SampleBoard.layout on there walks := by
  obtain ⟨s, hrun⟩ := boot_resolves_sample
  obtain ⟨es, hes, -, hfinished, -⟩ := boot_readback (s := fresh sampleConfig SampleBoard.layout
    sampleBoard .identity) rfl
  obtain ⟨roots, before, on, there, walks, hon, hthere, haccesses⟩ := hfinished s hrun
  rw [hrun] at hes
  exact ⟨s, es, roots, before, on, there, walks, hrun, rfl, hes.trace, hon, hthere, haccesses⟩

end Space

end HighHalf
