import HighHalf.Proofs.Space.Answers
import HighHalf.Proofs.Space.Lending
import HighHalf.Proofs.Tables.Publication

/-!
# Cached resolutions

A core may keep what it has resolved, and then looks at the tables no more. So whatever changes a
table has to be followed by the events that drop all cached resolutions. Every call is, whatever
way it ends: if anything was stored to a table, then the resolutions are dropped after the last
store. So no core has anything cached when a call returns that is not what the tables say.

## Main definitions

* `Core`: a core that may cache whatever it can see, with what it does on each event
* `Space.Drops`: resolutions are dropped after the last store to a table
* `Space.Coherent`: whatever a core had cached, it agrees with the tables now
-/

namespace HighHalf

open Event Board

variable {α : Type}

/-! ## Cores -/

/-- A core: the RAM that it sees, and the leaves that it may have cached for an address. -/
structure Core where
  ram : Ram
  caches : VirtAddr → Entry → Prop

namespace Core

variable {walk : Ram → VirtAddr → Entry} {x : Core} {es es' : List Event}

/-- What an event does to a core that resolves addresses by `walk`. It may cache what it can see
at any moment. All is dropped at once, and what can be seen then may be cached again. -/
def step (walk : Ram → VirtAddr → Entry) (x : Core) : Event → Core
  | .store s => ⟨s.apply x.ram, fun v e => x.caches v e ∨ e = walk (s.apply x.ram) v⟩
  | .tlbi => ⟨x.ram, fun v e => e = walk x.ram v⟩
  | _ => x

/-- The core after some events. -/
def run (walk : Ram → VirtAddr → Entry) (x : Core) (es : List Event) : Core :=
  es.foldl (step walk) x

/-- Nothing is cached but what can be seen. -/
def Coherent (walk : Ram → VirtAddr → Entry) (x : Core) : Prop :=
  ∀ v e, x.caches v e → e = walk x.ram v

theorem run_append : x.run walk (es ++ es') = (x.run walk es).run walk es' := List.foldl_append

theorem ram_run (x : Core) (es : List Event) : (x.run walk es).ram = replay x.ram es := by
  induction es generalizing x with
  | nil => rfl
  | cons e es ih =>
    have hstep : (x.step walk e).ram = replay x.ram [e] := by cases e <;> rfl
    rw [← List.singleton_append, replay_append, ← hstep]
    exact ih (x.step walk e)

/-- As long as every address is resolved as it was, what is cached stays right. -/
theorem Coherent.run (h : x.Coherent walk)
    (hsame : ∀ pre, pre <+: es → ∀ v, walk (replay x.ram pre) v = walk x.ram v) :
    (x.run walk es).Coherent walk := by
  induction es generalizing x with
  | nil => exact h
  | cons e es ih =>
    have hlater : ∀ r, r = replay x.ram [e] → ∀ pre, pre <+: es → ∀ v,
        walk (replay r pre) v = walk r v := by
      rintro r rfl pre hpre v
      rw [← replay_append, hsame _ ((List.prefix_append_right_inj [e]).2 hpre),
        hsame [e] ((List.prefix_append [e] es))]
    cases e with
    | store s =>
      refine ih (fun v e he => ?_) (hlater _ rfl)
      rcases he with hold | hnew
      · exact (h v e hold).trans (hsame [.store s] (List.prefix_append _ es) v).symm
      · exact hnew
    | tlbi => exact ih (fun v e he => he) (hlater _ rfl)
    | _ => exact ih h (hlater _ rfl)

/-- Whatever was cached, it is right once all resolutions have been dropped. -/
theorem coherent_run_of_dropped (x : Core) (walk : Ram → VirtAddr → Entry) (pre : List Event) :
    (x.run walk (pre ++ Control.dropping)).Coherent walk := by
  rw [run_append]
  exact fun v e he => he

end Core

/-! ## Stores to tables -/

/-- The store is to the byte at `n`: there is RAM in the bank of which it changes that byte. -/
def Store.Hits (s : Store) (r : Ram) (n : Nat) : Prop :=
  ∃ r', Ram.SameBank r r' ∧ (s.apply r').cell n ≠ r'.cell n

theorem Store.cell_apply_of_unhit {s : Store} {r r' : Ram} {n : Nat} (h : ¬ s.Hits r n)
    (hbank : Ram.SameBank r r') : (s.apply r').cell n = r'.cell n :=
  Classical.byContradiction fun hne => h ⟨r', hbank, hne⟩

namespace Space

open Memory Tables

variable {s s' : Space} {roots : Roots} {held : List PhysAddr} {b : Board} {v : VirtAddr}
  {call : Call} {es pre : List Event} {root : PhysAddr}

/-- The leaf that the trees have for `v` if RAM is `r`. -/
def leafIn (s : Space) (r : Ram) (v : VirtAddr) : Entry :=
  match s.roots with
  | none => .empty
  | some roots =>
    Tables.lookup r s.memory.frames.window (if v.high then roots.high else roots.low) v

/-- The store is to a byte of a table. -/
def ToTable (s : Space) (st : Store) : Prop :=
  ∃ t, s.IsTable t ∧ ∃ n, t.num ≤ n ∧ n < t.num + 4096 ∧ st.Hits s.memory.board.ram n

/-- After the last store to a table all cached resolutions are dropped, and nothing is stored
any more. -/
def Drops (s : Space) (es : List Event) : Prop :=
  ∀ pre st post, es = pre ++ .store st :: post → s.ToTable st →
    ∃ q rest, post = q ++ Control.dropping ++ rest ∧ ∀ st, .store st ∉ rest

/-- Whatever a core had cached when the board was `b`, all that it has cached now is what the
tables say. -/
def Coherent (b : Board) (s : Space) : Prop :=
  ∃ es, Happens b s.memory.board es ∧ ∀ x : Core, x.ram = b.ram → ∀ v e,
    (x.run s.leafIn es).caches v e → e = s.entry v

theorem leafIn_congr (hroots : s'.roots = s.roots)
    (hwindow : s'.memory.frames.window = s.memory.frames.window) : s'.leafIn = s.leafIn := by
  funext r v
  rw [leafIn, leafIn, hroots, hwindow]

/-- A core is coherent with the tables as they are. -/
theorem coherent_iff (hes : Happens b s.memory.board es) :
    s.Coherent b ↔ ∀ x : Core, x.ram = b.ram → (x.run s.leafIn es).Coherent s.leafIn := by
  have hentry : ∀ x : Core, x.ram = b.ram →
      ∀ v, s.leafIn (x.run s.leafIn es).ram v = s.entry v := by
    intro x hx v
    rw [Core.ram_run, hx, ← hes.ram]
    rfl
  constructor
  · rintro ⟨es', hes', h⟩ x hx v e he
    have hsame : es' = es := List.append_cancel_left (hes'.trace.symm.trans hes.trace)
    rw [hsame] at h
    rw [hentry x hx]
    exact h x hx v e he
  · intro h
    refine ⟨es, hes, fun x hx v e he => ?_⟩
    rw [← hentry x hx]
    exact h x hx v e he

/-- While nothing is stored to the tables, every address has the leaf that it had. -/
theorem leafIn_replay (hroots : s.roots = some roots)
    (hs : s.memory.Sound [roots.high, roots.low] held)
    (htables : ∀ t, s.IsTable t → s'.IsTable t)
    (hbank : Ram.SameBank s'.memory.board.ram s.memory.board.ram)
    (hes : ∀ st, .store st ∈ es → ¬ s'.ToTable st) (v : VirtAddr) :
    s.leafIn (replay s.memory.board.ram es) v = s.leafIn s.memory.board.ram v := by
  have hroot := roots.mem_halves v
  simp only [leafIn, hroots]
  refine lookup_of_sameTables hs (sameBank_replay es _) hroot (fun path t ht => ?_) v
  have htable : s'.IsTable t := htables t ((isTable_iff hroots).2 ⟨_, hroot, path, ht⟩)
  refine fun n hn hn' => cell_replay hbank fun st hst r => Store.cell_apply_of_unhit fun hhits => ?_
  exact hes st hst ⟨t, htable, n, hn, hn', hhits⟩

/-! ## What happens during a call -/

/-- Nothing is stored, or all cached resolutions are dropped in the end. -/
def Swept (es : List Event) : Prop := (∀ st, .store st ∉ es) ∨ ∃ pre, es = pre ++ Control.dropping

theorem Answered.swept {m : Memory} {ledger : Ledger} (h : Answered s s' m ledger)
    (hes : Happens s.memory.board m.board es) :
    ∃ es, Happens s.memory.board s'.memory.board es ∧ Swept es :=
  ⟨_, hes.trans h.dropped, Or.inr ⟨es, rfl⟩⟩

theorem swept_mapNamed {r : Except MapError Nat} (hroots : s.roots = some roots)
    (hmode : s.mode = .resolved) (name : String) (start stop : VirtAddr) (p : PhysAddr) (f : Flags)
    (hs : s.memory.Sound [roots.high, roots.low] held)
    (hrun : (mapNamed name start stop p f).run s = .ok r s') :
    ∃ es, Happens s.memory.board s'.memory.board es ∧ Swept es := by
  rcases cases_of_mapNamed hmode hrun with ⟨e, -, -, rfl⟩ | ⟨root, m, hroot, hmap, hanswer⟩
  · exact ⟨[], Happens.refl _, Or.inl nofun⟩
  · have hworks : Tables.Works s.memory m [roots.high, roots.low] held _ :=
      works_mapRange hs (mem_of_rootFor hroots hroot) (congrArg leftBy hmap)
    obtain ⟨es, hes, -⟩ := hworks.course
    rcases hanswer with ⟨e, -, hanswer⟩ | ⟨n, -, hanswer⟩
    · exact hanswer.swept hes
    · exact hanswer.swept hes

theorem swept_mapDevice {r : Except MapError Nat} (hroots : s.roots = some roots)
    (hmode : s.mode = .resolved) (p : PhysAddr) (size : Word)
    (hs : s.memory.Sound [roots.high, roots.low] held)
    (hrun : (mapDevice p size).run s = .ok r s') :
    ∃ es, Happens s.memory.board s'.memory.board es ∧ Swept es := by
  unfold mapDevice at hrun
  split at hrun
  · cases hrun
    exact ⟨[], Happens.refl _, Or.inl nofun⟩
  · rw [run_bindE_ok (run_getE s)] at hrun
    exact swept_mapNamed hroots hmode _ _ _ _ _ hs hrun

theorem swept_unmap {r : Except MapError Unit} (hroots : s.roots = some roots)
    (hmode : s.mode = .resolved) (v : VirtAddr)
    (hs : s.memory.Sound [roots.high, roots.low] held) (hrun : (unmap v).run s = .ok r s') :
    ∃ es, Happens s.memory.board s'.memory.board es ∧ Swept es := by
  rcases cases_of_unmap hmode hrun with ⟨e, -, -, rfl⟩ | ⟨root, o, m, hroot, hunmap, hanswer⟩
  · exact ⟨[], Happens.refl _, Or.inl nofun⟩
  rcases hanswer with ⟨e, rfl, -, rfl⟩ | ⟨old, rfl, -, hanswer⟩
  · -- A page that is not mapped is not unmapped.
    rcases unmapPage_spec v.floor hs (mem_of_rootFor hroots hroot) with ⟨hno, -⟩ | ⟨m₂, hyes, -⟩
    · cases hunmap.symm.trans hno
      exact ⟨[], Happens.refl _, Or.inl nofun⟩
    · cases hunmap.symm.trans hyes
  · obtain ⟨b, hb, rfl⟩ := exists_of_onBoard hunmap
    obtain ⟨t, -, hes⟩ := happens_unmapPage hb
    exact hanswer.swept hes

/-- A call that takes no frame stores nothing, or drops all cached resolutions in the end. -/
theorem Call.swept (hcall : call.Plain) (hroots : s.roots = some roots)
    (hmode : s.mode = .resolved) (hs : s.memory.Sound [roots.high, roots.low] held)
    (hrun : call.run s = .ok () s') :
    ∃ es, Happens s.memory.board s'.memory.board es ∧ Swept es := by
  cases Call.does_of_run hcall hmode hrun with
  | looks _ h =>
    obtain ⟨es, hes, hall⟩ := h.reads
    exact ⟨es, hes, Or.inl fun st hst => hall _ hst⟩
  | mapRange start stop p f hmap => exact swept_mapNamed hroots hmode _ _ _ _ _ hs hmap
  | mapDevice p size hmap => exact swept_mapDevice hroots hmode p size hs hmap
  | unmap v hunmap => exact swept_unmap hroots hmode v hs hunmap

end Space

namespace Lending

open Space Memory Tables

variable {c : MemoryConfig} {l : ImageLayout} {b b' : Board} {w : Window} {x y : Lending}
  {roots : Roots} {s : Space} {es : List Event}

/-! ## What happens during a step -/

/-- Callers are provided with the frames that they hold then. -/
theorem Trades.provided (h : Trades x y) :
    Provided (· ∈ y.held) x.space.memory y.space.memory := by
  cases h with
  | granted hrun =>
    obtain ⟨m, hm, rfl⟩ := exists_of_onMemory hrun
    refine provided_allocate hm fun p hp => ?_
    rw [Option.some.inj hp]
    exact List.mem_cons_self
  | unmet hrun =>
    obtain ⟨m, hm, rfl⟩ := exists_of_onMemory hrun
    exact provided_allocate hm nofun
  | returned _ hrun =>
    obtain ⟨m, hm, rfl⟩ := exists_of_onMemory hrun
    exact (provided_release _).of_ok hm
  | refused hrun =>
    obtain ⟨m, hm, rfl⟩ := exists_of_onMemory hrun
    exact (provided_release _).of_ok hm

/-- What callers hold is no table, so to provide it is to store to none. -/
theorem Orderly.untouched (hx : x.Orderly roots) (hy : y.Orderly roots)
    (hprovided : Provided (· ∈ y.held) x.space.memory y.space.memory) :
    ∃ es, Happens x.space.memory.board y.space.memory.board es ∧
      ∀ st, .store st ∈ es → ¬ y.space.ToTable st := by
  have hc := hx.sound.consistent
  have hmanaged : ∀ p, y.space.memory.Owned p → x.space.memory.frames.Manages p :=
    fun p hp => hprovided.plan.manages.1 hp.managed
  have hheld : ∀ p ∈ y.held, x.space.memory.frames.Manages p :=
    fun p hp => hmanaged p (hy.sound.held_owned p hp)
  obtain ⟨ss, hss, hall⟩ := hprovided.stores
  refine ⟨_, hss, ?_⟩
  rintro st hst ⟨t, ht, n, hn, hn', r, hbank, hhit⟩
  obtain ⟨howned, hnot⟩ := ht.owned hy.recorded hy.sound
  have hman := hmanaged t howned
  have hlow := (hc.has hman).1
  rw [hss.ram] at hbank
  refine hhit (cell_of_provides hc.bitmapInside (fun p hp => hc.has (hheld p hp))
    ((sameBank_replay _ _).trans hbank) (hall st (by simpa using hst)) (by omega)
    (hc.not_inBitmap hman hn) fun p hp hin => ?_)
  have hapart := hman.apart (hheld p hp) fun he => hnot (he ▸ hp)
  omega

theorem drops_of_untouched (h : ∀ st, .store st ∈ es → ¬ s.ToTable st) : s.Drops es := by
  rintro pre st post rfl htable
  exact absurd htable (h st (by simp))

theorem drops_of_swept (h : Swept es) : s.Drops es := by
  rintro pre st post hes -
  rcases h with hnone | ⟨pre', rfl⟩
  · exact absurd (by rw [hes]; simp) (hnone st)
  · have hnot : Event.store st ∉ Control.dropping := by simp [Control.dropping]
    rcases List.append_eq_append_iff.1 hes with ⟨q, rfl, hrest⟩ | ⟨q, rfl, hrest⟩
    · exact absurd (by rw [hrest]; simp) hnot
    · cases q with
      | nil => exact absurd (by rw [← List.nil_append Control.dropping, ← hrest]; simp) hnot
      | cons e q =>
        rw [List.cons_append, List.cons.injEq] at hrest
        exact ⟨q, [], by rw [hrest.2, List.append_nil], fun _ => List.not_mem_nil⟩

/-- Every step drops what it makes stale: if all that is cached before it is what the tables say,
then so it is after it. -/
theorem Orderly.drops (h : x.Orderly roots) (hstep : Step x y) :
    ∃ es, Happens x.space.memory.board y.space.memory.board es ∧ y.space.Drops es ∧
      (x.space.Coherent b → y.space.Coherent b) := by
  obtain ⟨hy, htables⟩ := h.step hstep
  have hserved := hstep.served (by rw [h.mode]; decide)
  obtain ⟨es, hes, hwindow, hcases⟩ : ∃ es,
      Happens x.space.memory.board y.space.memory.board es ∧
        y.space.memory.frames.window = x.space.memory.frames.window ∧
        ((∀ st, .store st ∈ es → ¬ y.space.ToTable st) ∨ Swept es) := by
    cases hstep with
    | trade htrade =>
      obtain ⟨es, hes, huntouched⟩ := h.untouched hy htrade.provided
      exact ⟨es, hes, htrade.provided.plan.window, Or.inl huntouched⟩
    | call call hplain hrun =>
      obtain ⟨es, hes, hswept⟩ := Call.swept hplain h.recorded h.mode h.sound hrun
      exact ⟨es, hes, (Call.grows hplain h.recorded h.mode h.sound hrun).plan.window,
        Or.inr hswept⟩
  refine ⟨es, hes, ?_, fun hx => ?_⟩
  · rcases hcases with huntouched | hswept
    · exact drops_of_untouched huntouched
    · exact drops_of_swept hswept
  have ⟨es₀, hes₀, _⟩ := hx
  rw [coherent_iff hes₀] at hx
  rw [coherent_iff (hes₀.trans hes), leafIn_congr (roots_of_served hserved) hwindow]
  intro core hcore
  have hram : (core.run x.space.leafIn es₀).ram = x.space.memory.board.ram := by
    rw [Core.ram_run, hcore, hes₀.ram]
  rw [Core.run_append]
  rcases hcases with huntouched | hnone | ⟨pre, rfl⟩
  · refine (hx core hcore).run fun pre hpre v => ?_
    rw [hram]
    refine leafIn_replay h.recorded h.sound htables ?_
      (fun st hst => huntouched st (hpre.subset hst)) v
    rw [hes.ram]
    exact (sameBank_replay ..).symm
  · refine (hx core hcore).run fun pre hpre v => ?_
    rw [replay_of_unstored fun st hst => hnone st (hpre.subset hst)]
  · exact Core.coherent_run_of_dropped (core.run x.space.leafIn es₀) x.space.leafIn pre

/-! ## The boot and runs -/

/-- What was cached at first is of no matter, so nothing that happened before is. -/
theorem coherent_before (hes : Happens b b' es) (h : s.Coherent b') : s.Coherent b := by
  obtain ⟨es', hes', hall⟩ := h
  refine ⟨es ++ es', hes.trans hes', fun x hx => ?_⟩
  rw [Core.run_append]
  refine hall _ ?_
  rw [Core.ram_run, hx, hes.ram]

/-- From the passed checks on no table is stored to, so nothing changes what an address has. -/
theorem leafIn_of_crossed {m : Memory} {k : Transition.Crossing}
    (h : Transition.Passed c l b w roots m) (hc : Transition.Crossed c l b w roots m s k)
    (hes : ∀ e ∈ es, e.Spares (Transition.landing c w b.cpu.behaviour) l.data) (v : VirtAddr) :
    s.leafIn (replay m.board.ram es) v =
      m.lookup (if v.high then roots.high else roots.low) v := by
  have hsame := sameOutside_replay h.mirrored h.data hes
  simp only [leafIn, hc.kept]
  refine h.lookup_eq hsame ?_ (roots.mem_halves v) v
  rw [hc.frames]
  exact hsame.bank.shows h.mirrored

/-- The boot drops all cached resolutions after its last store to a table. -/
theorem coherent_of_crossed {m : Memory} {k : Transition.Crossing}
    (h : Transition.Passed c l b w roots m) (hc : Transition.Crossed c l b w roots m s k) :
    s.Coherent b := by
  obtain ⟨built, hbuilt, -⟩ := h.built
  obtain ⟨xs, q, harming, -, -, hquiet⟩ := hc.arms.dropped
  have hstill : ∀ st, .store st ∉ k.arming := fun st hst => hc.arms.still _ hst st rfl
  have hall := hbuilt.trans hc.happens
  -- The same events, parted where the resolutions have been dropped.
  obtain ⟨rest, hrest⟩ : ∃ rest, rest = q ++ .write .sctlr k.control :: k.onward c l m := ⟨_, rfl⟩
  have hparted : built ++ (k.arming ++ .write .sctlr k.control :: k.onward c l m) =
      built ++ xs ++ Control.dropping ++ rest := by
    rw [hrest, harming]
    simp only [List.append_assoc]
  rw [hparted] at hall
  have hram : ∀ core : Core, core.ram = b.ram →
      (core.run s.leafIn (built ++ xs ++ Control.dropping)).ram = m.board.ram := by
    intro core hcore
    rw [Core.ram_run, hcore, List.append_assoc, replay_append, ← hbuilt.ram]
    refine replay_of_unstored fun st hst => hstill st ?_
    rw [harming]
    exact List.mem_append_left q hst
  have hspares : ∀ e ∈ rest, e.Spares (Transition.landing c w b.cpu.behaviour) l.data := by
    rw [hrest, List.forall_mem_append, List.forall_mem_cons]
    exact ⟨fun e he => Transition.spares_of_still (hquiet e he).still, nofun, h.spares hc⟩
  rw [coherent_iff hall]
  intro core hcore
  have hdropped : (core.run s.leafIn (built ++ xs ++ Control.dropping)).Coherent s.leafIn :=
    core.coherent_run_of_dropped s.leafIn (built ++ xs)
  rw [Core.run_append]
  refine hdropped.run fun pre hpre v => ?_
  rw [hram core hcore, leafIn_of_crossed h hc (fun e he => hspares e (hpre.subset he)) v]
  exact (leafIn_of_crossed h hc (List.forall_mem_nil _) v).symm

theorem coherent_of_boot {n : Nat} (h : Transition.Hosted c l b' w)
    (htop : c.memory.stop.num ≤ 2 ^ 48) (hreads : b.Reads b')
    (hboot : boot (asked c l b' w n) = .ok .resolved s) : s.Coherent b := by
  obtain ⟨es, hes, -⟩ := hreads
  obtain ⟨roots, m, k, hpassed, hcrossed⟩ := crossed_of_asked h htop hboot
  exact coherent_before hes (coherent_of_crossed hpassed hcrossed)

/-- Whatever a core cached at any moment of a run, after every call it has only what the tables
say. -/
theorem coherent_of_run (h : Transition.Hosted c l b w) (htop : c.memory.stop.num ≤ 2 ^ 48)
    (hrun : Relation.ReflTransGen Step ⟨fresh c l b w, []⟩ x) (hmode : x.space.mode = .resolved) :
    x.space.Coherent b := by
  refine resolved_of_run (P := fun x => x.space.Coherent b) h htop id
    (fun hhosted hreads hboot => coherent_of_boot hhosted htop hreads hboot)
    (fun horderly hcoherent hstep => ?_) hrun hmode
  obtain ⟨es, -, -, hkept⟩ := horderly.drops (b := b) hstep
  exact hkept hcoherent

/-- In the high half, every call that returns has dropped all cached resolutions after its last
store to a table, and has stored nothing after that. So whatever a core cached at any moment of
the run, it has nothing cached now, and will have nothing cached after the next call, that is not
what the tables say. -/
theorem resolutions_dropped (h : Transition.Hosted c l b w) (htop : c.memory.stop.num ≤ 2 ^ 48)
    (hrun : Relation.ReflTransGen Step ⟨fresh c l b w, []⟩ x) (hmode : x.space.mode = .resolved) :
    x.space.Coherent b ∧ ∀ y, Step x y → y.space.Coherent b ∧
      ∃ es, Happens x.space.memory.board y.space.memory.board es ∧ y.space.Drops es := by
  have hcoherent := coherent_of_run h htop hrun hmode
  refine ⟨hcoherent, fun y hstep => ?_⟩
  cases standing_of_run h htop hrun with
  | waiting b' n hspace =>
    rw [hspace] at hmode
    cases hmode
  | orderly roots horderly =>
    obtain ⟨es, hes, hdrops, hkept⟩ := horderly.drops (b := b) hstep
    exact ⟨hkept hcoherent, es, hes, hdrops⟩
  | bypass hbypass =>
    rw [hbypass] at hmode
    cases hmode

/-- A page that is mapped is unmapped. -/
theorem run_unmap_mapped {v : VirtAddr} {root : PhysAddr} {held : List PhysAddr}
    (hroots : s.roots = some roots) (hmode : s.mode = .resolved)
    (hs : s.memory.Sound [roots.high, roots.low] held) (hv : v.floor = v)
    (hroot : s.rootFor v (v.add pageSize) = .ok root) (hleaf : s.memory.lookup root v ≠ .empty) :
    ∃ s', unmap v s = .ok (.ok ()) s' ∧ s'.roots = some roots ∧
      s'.memory.lookup root v = .empty := by
  have hmem := mem_of_rootFor hroots hroot
  rcases unmapPage_spec v hs hmem with ⟨-, hempty⟩ | ⟨m, hunmap, -, hone⟩
  · exact absurd hempty hleaf
  have hlookup : m.lookup root v = .empty := by rw [hone root hmem v, if_pos ⟨rfl, rfl⟩]
  have hrun := run_unmap_of_root (v := v) hmode (by rw [hv]; exact hroot)
  have hfirst : (Space.onBoard (Tables.unmapPage s.memory.frames.window root v)).run s =
      .ok (.ok (s.memory.lookup root v)) (s.withMemory m) := run_onMemory (s := s) hunmap
  rw [hv, unmapBelow, run_bindE_ok hfirst] at hrun
  exact ⟨_, hrun, hroots, hlookup⟩

/-- The sample board after its boot: unmapping a page of the text changes a table, and no core
resolves the page any more. -/
theorem resolutions_dropped_sample :
    ∃ s y es, boot (fresh sampleConfig SampleBoard.layout sampleBoard .identity) = .ok .resolved s ∧
      s.mode = .resolved ∧
      Relation.ReflTransGen Step ⟨fresh sampleConfig SampleBoard.layout sampleBoard .identity, []⟩
        ⟨s, []⟩ ∧
      Step ⟨s, []⟩ y ∧
      s.entry (.ofWord 0xFFFF800040001000) = Area.leaf 0x40001000 .text ∧
      y.space.entry (.ofWord 0xFFFF800040001000) = .empty ∧
      Happens s.memory.board y.space.memory.board es ∧ y.space.Drops es ∧
      y.space.Coherent sampleBoard := by
  obtain ⟨s, hboot⟩ := boot_resolves_sample
  obtain ⟨roots, m, k, hpassed, hcrossed⟩ := crossed_of_boot hosted_sample (by decide) hboot
  obtain ⟨hmode, -⟩ := recorded_of_boot rfl hboot
  have hlaid := hpassed.laid feasible_sample.low (by decide)
  have hroots := hcrossed.kept
  have hleaf : s.memory.lookup roots.high (.ofWord 0xFFFF800040001000) =
      Area.leaf 0x40001000 .text :=
    (lookup_of_crossed hpassed hcrossed (by simp) _).trans
      ((hlaid.high _ (VirtAddr.canonical_ofWord _)).trans (by decide))
  have hroot : s.rootFor (.ofWord 0xFFFF800040001000)
      ((VirtAddr.ofWord 0xFFFF800040001000).add pageSize) = .ok roots.high := by
    rw [rootFor, hroots]
    rfl
  obtain ⟨s', hunmap, hroots', hempty⟩ := run_unmap_mapped hroots hmode
    (sound_of_crossed hpassed hcrossed) (by decide) hroot (by rw [hleaf]; decide)
  have hstep : Step ⟨fresh sampleConfig SampleBoard.layout sampleBoard .identity, []⟩ ⟨s, []⟩ :=
    .call .boot trivial (run_bind_ok hboot)
  have hrun := Relation.ReflTransGen.single hstep
  have hnext : Step ⟨s, []⟩ ⟨s', []⟩ :=
    .call (.unmap (.ofWord 0xFFFF800040001000)) trivial (run_bind_ok hunmap)
  obtain ⟨-, hall⟩ := resolutions_dropped hosted_sample (by decide) hrun hmode
  obtain ⟨hcoherent, es, hes, hdrops⟩ := hall _ hnext
  refine ⟨s, _, es, hboot, hmode, hrun, hnext, ?_, ?_, hes, hdrops, hcoherent⟩
  · rw [Space.entry, hroots]
    exact hleaf
  · rw [Space.entry, hroots']
    exact hempty

end Lending

end HighHalf
