import HighHalf.Proofs.Space.BeforeBoot
import HighHalf.Proofs.Transition.GivenUp

/-!
# Physical addresses

A boot that gives the move up may have taken frames, linked tables and recorded mappings before.
None of that is ever used: the roots are forgotten, and from then on mapping and unmapping
succeed and do nothing. In the whole run, before the boot, during it and after it, no register is
written but the vectors, and those only with their physical address. Frames can be had and given
back as if the move had never been tried.

## Main definitions

* `Event.Mild`: what happens in a run whose move was given up
* `Space.Bypassed`: what holds after each call of such a run
* `Space.Harmless`: what the rest of the kernel can rely on then
-/

namespace HighHalf

open Event Board Memory

/-- What happens in a run whose move was given up: building, reads, and writes of the physical
address of the vectors. -/
def Event.Mild (l : ImageLayout) : Event → Prop
  | .store _ | .dsb _ | .isb | .clean _ | .read .. => True
  | .write r v => r = .vbar ∧ v = l.vectors.val
  | _ => False

namespace Event

variable {l : ImageLayout}

theorem Builds.mild {e : Event} (h : e.Builds) : e.Mild l := by
  cases e <;> trivial

theorem IsRead.mild {e : Event} (h : e.IsRead) : e.Mild l := by
  cases e <;> trivial

end Event

/-- Reads are mild. -/
theorem Board.Reads.mild {l : ImageLayout} {b b' : Board} (h : b.Reads b') :
    b.Only (Mild l) b' :=
  Only.mono h fun _ => IsRead.mild

/-- Setting the vectors makes a write, a barrier and a read. -/
theorem Control.emits_setVectors {P : Event → Prop} {a : Word} (hwrite : P (.write .vbar a))
    (hisb : P .isb) (hread : ∀ v, P (.read .vbar v)) : Emits P (setVectors a) := by
  unfold setVectors writeVerified
  refine emits_bind (emits_bind (emits_note ..) fun _ => ⟨fun b => ?_⟩) fun _ => ?_
  · refine ⟨[.write .vbar a], Happens.one rfl rfl rfl rfl, fun e he => ?_⟩
    rwa [List.mem_singleton.1 he]
  refine emits_bind (emits_emit hisb (fun _ => rfl) fun _ => rfl) fun _ => ?_
  unfold verify
  refine emits_bind (emits_readRegister hread) fun seen => emits_ite ?_ (emits_pure _)
  exact emits_bind (emits_note ..) fun _ => emits_throw _

namespace Space

variable {c : MemoryConfig} {l : ImageLayout} {b : Board} {w : Window} {n : Nat} {s s' : Space}
  {a : Abort} {call : Call} {p : PhysAddr}

/-! ## Settling for physical addresses -/

/-- Settling changes nothing but what is recorded of the move, and the vectors. -/
theorem exists_of_enterBypass (hrun : enterBypass a s = .ok () s') :
    ∃ b phase, s' = { s.withMemory ⟨b, s.memory.frames⟩ with
        phase := phase, abort := some a, roots := none, live := .identity } ∧
      b.ram = s.memory.board.ram ∧ s.memory.board.Only (Mild s.layout) b := by
  obtain ⟨b₁, b₂, b₃, p, hb₁, hb₂, hb₃, rfl⟩ := stages_of_enterBypass hrun
  have hemits : Emits (fun e => e.Mild s.layout ∧ e.Still)
      (Control.setVectors s.layout.vectors.val) :=
    Control.emits_setVectors ⟨⟨rfl, rfl⟩, nofun⟩ ⟨trivial, nofun⟩ fun _ => ⟨trivial, nofun⟩
  have h₁ : s.memory.board.Only (fun e => e.Mild s.layout ∧ e.Still) b₁ :=
    (emits_note ..).of_ok hb₁
  have h₂ : b₁.Only (fun e => e.Mild s.layout ∧ e.Still) b₂ :=
    (Transition.emits_stepTo ..).of_ok hb₂
  have h₃ := (h₁.trans h₂).trans (hemits.of_ok hb₃)
  refine ⟨b₃, p, rfl, ?_, h₃.mono fun _ h => h.1⟩
  obtain ⟨es, hes, hall⟩ := h₃
  exact hes.ram_of_still fun e he => (hall e he).2

/-- While the move can be given up, settling for physical addresses does not stop. -/
theorem run_enterBypass (hf : s.memory.board.cpu.behaviour.Faithful)
    (hearly : a.phase ∈ Phase.early) :
    ∃ s', enterBypass a s = .ok () s' ∧ s'.abort = some a ∧
      s'.memory.frames = s.memory.frames := by
  obtain ⟨b₁, hnote⟩ : ∃ b, note .warn .space "continuing with physical addressing"
      s.memory.board = .ok () b := ⟨_, rfl⟩
  obtain ⟨es, h₁, -⟩ := (emits_note (P := fun _ => True) ..).of_ok hnote
  obtain ⟨b₂, hstep, h₂⟩ := Transition.run_stepTo (Phase.allows_bypass _ hearly) b₁
  have hbehaviour : b₂.cpu.behaviour = s.memory.board.cpu.behaviour :=
    h₂.behaviour.trans h₁.behaviour
  obtain ⟨b₃, hvectors⟩ := Control.run_writeVerified (b := b₂) (by rwa [hbehaviour]) .vbar
    s.layout.vectors.val
  -- What is recorded of the move when the vectors are set.
  obtain ⟨s₁, hlayout, hmemory, habort, hmodify⟩ : ∃ s₁ : Space, s₁.layout = s.layout ∧
      s₁.withMemory ⟨b₂, s.memory.frames⟩ = s₁ ∧ s₁.abort = some a ∧
      (modify fun s =>
        { s with phase := .bypass, abort := some a, roots := none, live := .identity } :
        SpaceM Unit) (s.withMemory ⟨b₂, s.memory.frames⟩) = .ok () s₁ :=
    ⟨{ s.withMemory ⟨b₂, s.memory.frames⟩ with
      phase := .bypass, abort := some a, roots := none, live := .identity },
      rfl, rfl, rfl, rfl⟩
  have hlast := run_board (s := s₁) (m := ⟨b₂, s.memory.frames⟩) hvectors
  rw [hmemory, ← hlayout] at hlast
  refine ⟨s₁.withMemory ⟨b₃, s.memory.frames⟩, ?_, habort, rfl⟩
  refine (run_bind_ok (run_board (s := s) (m := s.memory) hnote)).trans ?_
  refine (run_bind_ok (run_board (s := s) (m := ⟨b₁, s.memory.frames⟩) hstep)).trans ?_
  exact (run_bind_ok hmodify).trans ((run_bind_ok (run_get _)).trans hlast)

/-- What holds in every state of a run whose move was given up. The store is usable in any case;
where the managed range is one of whole pages, its counts are right as well. -/
structure Bypassed (c : MemoryConfig) (l : ImageLayout) (b : Board) (w : Window) (s : Space) :
    Prop where
  mode : s.mode = .bypass
  roots : s.roots = none
  only : b.Only (Mild l) s.memory.board
  window : s.memory.frames.window = w
  region : s.memory.frames.region = c.memory
  usable : c.memory.stop.num ≤ 2 ^ 48 → s.memory.Usable
  consistent : c.memory.stop.num ≤ 2 ^ 48 → c.memory.stop.num % 4096 = 0 → s.memory.Consistent

/-- A boot that gives the move up leaves it so. -/
theorem bypassed_of_boot (hshows : b.ram.Shows w)
    (hinside : b.ram.Has c.memory.start.num (c.memory.stop.num - c.memory.start.num))
    (haligned : c.memory.start.num % 4096 = 0)
    (hrun : boot (asked c l b w n) = .ok .bypass s) : Bypassed c l b w s := by
  obtain ⟨m, s₁, s₂, hsetup, rfl, hcases⟩ := boot_cases rfl hrun
  rcases hcases with ⟨arrival, -, -, hmode⟩ | ⟨a, hmove, hbypass, -⟩
  · cases hmode
  have hset := setup_spec ⟨rfl, rfl, rfl, haligned, hshows, hinside⟩ hsetup
  have hgiven := Transition.givenUp_of_run hset.consistent hmove
  obtain ⟨b', phase, rfl, hram, honly⟩ := exists_of_enterBypass hbypass
  have hlayout : s₁.layout = l := by
    obtain ⟨m', ledger, live, rfl⟩ := (Transition.cautious_run ..).moving.of_ok hmove
    rfl
  have hbefore : b.Only Builds m.board := (emits_setup l.image).of_ok hsetup
  have hkeeps : Keeps s₁.memory ⟨b', s₁.memory.frames⟩ := keeps_board hram
  have hplan : Frames.SamePlan m.frames s₁.memory.frames := hgiven.stays
  have hconsistent : c.memory.stop.num ≤ 2 ^ 48 →
      Memory.Consistent ⟨b', s₁.memory.frames⟩ := by
    intro htop
    exact hkeeps.consistent (hgiven.consistent (sound_of_setup hset (le_of_setup hsetup) htop))
  have hafter : (s₁.memory.noted .error .space a.message).board.Only (Mild l) b' := by
    rw [← hlayout]
    exact honly
  refine ⟨rfl, rfl, ?_, hplan.window.trans hset.window, hplan.region.trans hset.region,
    fun htop => (hconsistent htop).usable, fun htop _ => hconsistent htop⟩
  exact ((hbefore.trans hgiven.built).mono fun _ => Builds.mild).trans
    ((reads_noted s₁.memory ..).mild.trans hafter)

/-! ## Requests for mappings -/

/-- A range is mapped without anything being done. -/
theorem run_mapNamed_bypass (h : s.mode = .bypass) (name : String) (start stop : VirtAddr)
    (p : PhysAddr) (f : Flags) :
    ∃ text, (mapNamed name start stop p f).run s =
      .ok (.ok 0) (s.withMemory (s.memory.noted .debug .space text)) := by
  refine ⟨s!"bypass: not mapping {start}..{stop}", ?_⟩
  unfold mapNamed
  rw [run_bindE_ok (run_getE s), h]
  rfl

theorem run_mapDevice_bypass {size : Word} {r : PhysRange} (h : s.mode = .bypass)
    (hpages : devicePages p size = some r) :
    ∃ text, (mapDevice p size).run s =
      .ok (.ok 0) (s.withMemory (s.memory.noted .debug .space text)) := by
  unfold mapDevice
  rw [hpages]
  obtain ⟨text, hrun⟩ := run_mapNamed_bypass h "device" (r.start.highAlias s.config.highBase)
    (r.stop.highAlias s.config.highBase) r.start .device
  exact ⟨text, (run_bindE_ok (run_getE s)).trans hrun⟩

theorem run_mapDevice_refused {size : Word} (hpages : devicePages p size = none) :
    (mapDevice p size).run s = .ok (.error .badRange) s := by
  unfold mapDevice
  rw [hpages]
  rfl

theorem run_unmap_bypass (h : s.mode = .bypass) (v : VirtAddr) :
    (unmap v).run s = .ok (.ok ()) s := by
  unfold unmap
  rw [run_bindE_ok (run_getE s), h]
  rfl

/-- The registers of a device have an alias unless they come near the end of what has one. -/
theorem exists_devicePages {size : Word}
    (h : p.num + max size.toNat 1 ≤ 2 ^ 47 - 4096) : ∃ r, devicePages p size = some r := by
  rcases devicePages_cases p size with ⟨hfar, -⟩ | ⟨-, r, hpages, -⟩
  · omega
  · exact ⟨r, hpages⟩

/-! ## What the calls do -/

/-- What takes a frame or gives one back. -/
def Call.Trades : Call → Prop
  | .allocate | .release _ => True
  | _ => False

/-- With physical addresses, a request for a mapping changes nothing but the log, and neither
does another boot. -/
theorem Call.idles_of_bypass (htrades : ¬ call.Trades) (hlooks : ¬ call.Looks)
    (hmode : s.mode = .bypass) : ∃ s', call.run s = .ok () s' ∧ Looked s s' := by
  cases call with
  | boot => exact ⟨_, run_bind_ok (boot_again (by rw [hmode]; decide)), looked_noted ..⟩
  | mapRange start stop p f =>
    obtain ⟨text, hrun⟩ := run_mapNamed_bypass hmode "dynamic" start stop p f
    exact ⟨_, run_bind_ok hrun, looked_noted ..⟩
  | mapDevice p size =>
    cases hpages : devicePages p size with
    | none => exact ⟨s, run_bind_ok (run_mapDevice_refused hpages), Std.Refl.refl s⟩
    | some r =>
      obtain ⟨text, hrun⟩ := run_mapDevice_bypass hmode hpages
      exact ⟨_, run_bind_ok hrun, looked_noted ..⟩
  | unmap v => exact ⟨s, run_bind_ok (run_unmap_bypass hmode v), Std.Refl.refl s⟩
  | allocate => exact absurd trivial htrades
  | release p => exact absurd trivial htrades
  | _ => exact absurd trivial hlooks

theorem Call.looked_of_bypass (htrades : ¬ call.Trades) (hmode : s.mode = .bypass)
    (hrun : call.run s = .ok () s') : Looked s s' := by
  by_cases hlooks : call.Looks
  · exact (Call.looked hlooks).of_ok hrun
  · obtain ⟨s₁, hidles, hlooked⟩ := Call.idles_of_bypass htrades hlooks hmode
    cases hrun.symm.trans hidles
    exact hlooked

/-- A request to the store keeps what is known if it keeps the store usable and its plan. -/
theorem Bypassed.traded {m : Memory} (h : Bypassed c l b w s)
    (honly : s.memory.board.Only Builds m.board) (hplan : s.memory.Stays m)
    (husable : s.memory.Usable → m.Usable)
    (hconsistent : s.memory.frames.region.stop.num % 4096 = 0 →
      s.memory.Consistent → m.Consistent) :
    Bypassed c l b w (s.withMemory m) where
  mode := h.mode
  roots := h.roots
  only := h.only.trans (honly.mono fun _ => Builds.mild)
  window := hplan.window.trans h.window
  region := hplan.region.trans h.region
  usable htop := husable (h.usable htop)
  consistent htop hstop := hconsistent (by rw [h.region]; exact hstop) (h.consistent htop hstop)

/-- Whatever is asked with physical addresses, it stays with them. -/
theorem Bypassed.step (h : Bypassed c l b w s) (hrun : call.run s = .ok () s') :
    Bypassed c l b w s' := by
  by_cases htrades : call.Trades
  · cases call with
    | allocate =>
      obtain ⟨p, s₁, hallocate, hdone⟩ := exists_of_run_bind hrun
      cases hdone
      obtain ⟨m, hm, rfl⟩ := exists_of_onMemory hallocate
      refine h.traded (emits_allocate.of_ok hm) (stays_allocate.of_ok hm) (fun hu => ?_)
        fun _ hc => ?_
      · rcases hu.allocate with ⟨m', hrun', -, hu'⟩ | ⟨q, m', hrun', -, hu'⟩
        all_goals
          cases hm.symm.trans hrun'
          exact hu'
      · rcases allocate_takes hc with ⟨m', hrun', hmiss⟩ | ⟨q, m', hrun', htakes, -⟩
        · cases hm.symm.trans hrun'
          exact hmiss.keeps.consistent hc
        · cases hm.symm.trans hrun'
          exact htakes.consistent
    | release p =>
      obtain ⟨r, s₁, hrelease, hdone⟩ := exists_of_run_bind hrun
      cases hdone
      obtain ⟨m, hm, rfl⟩ := exists_of_onMemory hrelease
      refine h.traded ((emits_release p).of_ok hm) ((stays_release p).of_ok hm) (fun hu => ?_)
        fun hstop hc => ?_
      · obtain ⟨r', m', hrun', hu'⟩ := hu.release p
        cases hm.symm.trans hrun'
        exact hu'
      · rcases refusal_of_release hm with ⟨-, hnone⟩ | ⟨e, -, -, hkeeps⟩
        · obtain ⟨m', hrun', hreleases⟩ := release_spec hc ((refusal_eq_none_iff hc hstop).1 hnone)
          cases hm.symm.trans hrun'
          exact hreleases.consistent
        · exact hkeeps.consistent hc
    | _ => exact absurd htrades id
  · have hlooked := Call.looked_of_bypass htrades h.mode hrun
    have hreads := hlooked.reads
    obtain ⟨b', rfl⟩ := hlooked.kept
    have hkeeps : Keeps s.memory ⟨b', s.memory.frames⟩ := keeps_board hreads.ram
    exact ⟨h.mode, h.roots, h.only.trans hreads.mild, h.window, h.region,
      fun htop => hkeeps.usable (h.usable htop),
      fun htop hstop => hkeeps.consistent (h.consistent htop hstop)⟩

theorem Later.bypassed (h : Bypassed c l b w s) (hlater : Later s s') : Bypassed c l b w s' := by
  induction hlater with
  | refl => exact h
  | step call _ hrun ih => exact ih.step hrun

/-- From then on the mode stays what it was settled as. -/
theorem mode_of_later {s₀ s₁ : Space} {mode : Mode} (hmode : s₀.mode = .unsettled)
    (hboot : boot s₀ = .ok mode s₁) (hlater : Later s₁ s) : s.mode = mode ∧ mode ≠ .unsettled := by
  obtain ⟨hrecorded, hne⟩ := recorded_of_boot hmode hboot
  exact ⟨(hlater.served (by rw [hrecorded]; exact hne)).mode_eq.trans hrecorded, hne⟩

/-- While the mode is not settled, frames have been asked for at most. -/
theorem Later.unbooted (h : Later (fresh c l b w) s) (hmode : s.mode = .unsettled) :
    ∃ b' n, s = asked c l b' w n ∧ b.Reads b' := by
  rcases h.phases with hasked | ⟨b', n, mode, s₁, -, hboot, hlater⟩
  · exact hasked
  · obtain ⟨hsame, hne⟩ := mode_of_later rfl hboot hlater
    exact absurd (hsame.symm.trans hmode) hne

/-- In every state of every run whose move was given up, that is how it stands. -/
theorem bypassed_of_later (hshows : b.ram.Shows w)
    (hinside : b.ram.Has c.memory.start.num (c.memory.stop.num - c.memory.start.num))
    (haligned : c.memory.start.num % 4096 = 0) (h : Later (fresh c l b w) s)
    (hmode : s.mode = .bypass) : Bypassed c l b w s := by
  rcases h.phases with ⟨b', n, rfl, -⟩ | ⟨b', n, mode, s₁, hreads, hboot, hlater⟩
  · cases hmode
  obtain rfl : mode = .bypass := (mode_of_later rfl hboot hlater).1.symm.trans hmode
  have hbooted : Bypassed c l b' w s₁ :=
    bypassed_of_boot (by rw [hreads.ram]; exact hshows) (by rw [hreads.ram]; exact hinside)
      haligned hboot
  have hafter := Later.bypassed hbooted hlater
  exact { hafter with only := hreads.mild.trans hafter.only }

/-! ## The next call -/

theorem emits_describe {P : Event → Prop} (v : VirtAddr) : Emits P (describe v) := by
  have hnote : ∀ text, Emits P (liftM (note .info .space text) : SpaceM Unit) :=
    fun _ => emits_onMemory (emits_onBoard (emits_note ..))
  unfold describe
  refine emits_bind emits_get fun s => emits_bind emits_get fun s => ?_
  refine emits_bind (hnote _) fun _ => emits_bind emits_get fun s => ?_
  split
  · exact emits_bind (emits_check _) fun p => hnote _
  · exact emits_pure _

/-- What only looks does no more than read, even if it stops. -/
theorem Call.emits_looks (h : call.Looks) : Emits IsRead call.run := by
  have hdone : ∀ {α : Type} {x : SpaceM α}, Emits IsRead x → Emits IsRead (do let _ ← x) :=
    fun h => emits_bind h fun _ => emits_pure _
  have hboard : ∀ {α : Type} {x : BoardM α}, Emits IsRead x → Emits IsRead (liftM x : SpaceM α) :=
    fun h => emits_onMemory (emits_onBoard h)
  cases call with
  | describe v => exact emits_describe v
  | summarize => exact emits_onMemory emits_summarize
  | logLedger => exact emits_bind emits_get fun s => hboard (Ledger.emits_logAll _)
  | conflicts => exact hdone (emits_bind emits_get fun s => hboard (Ledger.emits_conflictsIn _))
  | processorResolves =>
    refine hdone (hboard ?_)
    exact emits_bind (emits_readRegister fun _ => trivial) fun _ => emits_pure _
  | _ => exact absurd h id

theorem Call.emits_trades (h : call.Trades) : Emits Builds call.run := by
  have hdone : ∀ {α : Type} {x : MemoryM α}, Emits Builds x →
      Emits Builds (do let _ ← onMemory x : SpaceM Unit) :=
    fun h => emits_bind (emits_onMemory h) fun _ => emits_pure _
  cases call with
  | allocate => exact hdone emits_allocate
  | release p => exact hdone (emits_release p)
  | _ => exact absurd h id

/-- With physical addresses no call does more than build and read, even if it stops. -/
theorem Call.mild_of_bypass (l : ImageLayout) (call : Call) (hmode : s.mode = .bypass) :
    s.memory.board.Only (Mild l) (leftBy (call.run s)).memory.board := by
  by_cases hlooks : call.Looks
  · exact ((Call.emits_looks hlooks).mono fun _ => IsRead.mild).happens s
  · by_cases htrades : call.Trades
    · exact ((Call.emits_trades htrades).mono fun _ => Builds.mild).happens s
    · obtain ⟨s', hrun, hlooked⟩ := Call.idles_of_bypass htrades hlooks hmode
      rw [hrun]
      exact hlooked.reads.mild

/-! ## Boots that give the move up -/

/-- If the move is given up before the switch, only building was done, so the boot is given up. -/
theorem boot_of_refused_prepare {m : Memory} {s₁ : Space}
    (hset : SetUp (asked c l b w n).memory m l.image) (hfaithful : b.cpu.behaviour.Faithful)
    (hsetup : Memory.setup l.image (asked c l b w n).memory = .ok (.ok ()) m)
    (hprepare : (Transition.prepare c l).run ((asked c l b w n).withMemory m) =
      .ok (.error a) s₁) :
    ∃ s, boot (asked c l b w n) = .ok .bypass s ∧ s.abort = some a ∧
      s.memory.frames = s₁.memory.frames := by
  have hmove : (Transition.run c l).run ((asked c l b w n).withMemory m) = .ok (.error a) s₁ :=
    run_bindE_fail hprepare
  obtain ⟨es, hes, -⟩ := (emits_setup l.image).of_ok hsetup
  obtain ⟨es', hes', -⟩ := (Transition.givenUp_of_run hset.consistent hmove).built
  have hbehaviour : s₁.memory.board.cpu.behaviour = b.cpu.behaviour :=
    hes'.behaviour.trans hes.behaviour
  have hfaithful' : s₁.memory.board.cpu.behaviour.Faithful := by rwa [hbehaviour]
  obtain ⟨s₂, hbypass, habort, hframes⟩ := run_enterBypass (a := a)
    (s := s₁.withMemory (s₁.memory.noted .error .space a.message)) hfaithful'
    ((Transition.cautious_run ..).early hmove)
  exact ⟨_, run_boot_bypass rfl hsetup hmove hbypass, habort, hframes⟩

/-- The sample board's layout, with a table that is a third of a record. -/
def brokenLayout : ImageLayout :=
  { SampleBoard.layout with relocations := .ofWords 0x40008000 0x40008008 }

/-- On the sample board nothing is wrong but that table, which is found out when both halves have
been mapped. -/
theorem boot_broken :
    ∃ s, boot (fresh sampleConfig brokenLayout sampleBoard .identity) = .ok .bypass s ∧
      s.abort = some ⟨.dualMapped, .relocation (.malformed 8)⟩ := by
  obtain ⟨m, hsetup, hset⟩ := setUp_of_fits ⟨rfl, rfl, rfl, rfl, hosted_sample.shows,
    hosted_sample.inside⟩ fits_sample
  have hsound := sound_of_setup (c := sampleConfig) (l := brokenLayout) (n := 0) hset
    (by decide) (by decide)
  obtain ⟨es, hes, -⟩ := (emits_setup brokenLayout.image).of_ok hsetup
  have hbehaviour : m.board.cpu.behaviour = sampleBoard.cpu.behaviour := hes.behaviour
  have hregular : Transition.Regular sampleConfig brokenLayout m.board.cpu.behaviour := by
    rw [hbehaviour]
    exact ⟨rfl, feasible_sample.whole, { feasible_sample.low with }, feasible_sample.apart.agree,
      feasible_sample.faithful⟩
  have hsupply := supply_of_room (n := 0) (k := Transition.framesFor sampleConfig brokenLayout) hset
    fits_sample rfl rfl (by decide)
  rcases Transition.prepare_cases hregular
      (s := (asked sampleConfig brokenLayout sampleBoard .identity 0).withMemory m) hsound rfl with
    ⟨a, s', -, -, hfew⟩ | ⟨m', -, hdecided⟩
  · rw [memory_withMemory] at hfew
    omega
  · have hobjection : ∀ r w sp, Transition.objection brokenLayout r w sp =
        some (.relocation (.malformed 8)) := fun _ _ _ => rfl
    rw [hobjection] at hdecided
    obtain ⟨s₁, hprepare⟩ := hdecided
    obtain ⟨s, hboot, habort, -⟩ := boot_of_refused_prepare (l := brokenLayout) (n := 0) hset
      feasible_sample.faithful hsetup hprepare
    exact ⟨s, hboot, habort⟩

/-! ## What the rest of the kernel can rely on -/

/-- What the rest of the kernel can rely on once the move was given up, in a run that began with
the board `b` and the window `w`. -/
structure Harmless (c : MemoryConfig) (l : ImageLayout) (b : Board) (w : Window) (s : Space) :
    Prop where
  only : b.Only (Mild l) s.memory.board
  registers : ∀ r, r ≠ .vbar →
    s.memory.board.cpu.registers.get r = b.cpu.registers.get r
  window : s.memory.frames.window = w
  next : ∀ call : Call, s.memory.board.Only (Mild l) (leftBy (call.run s)).memory.board
  mapRange : ∀ start stop p f, ∃ text, (mapRange start stop p f).run s =
    .ok (.ok 0) (s.withMemory (s.memory.noted .debug .space text))
  /-- A device has one byte at least. -/
  mapDevice : ∀ (p : PhysAddr) (size : Word), p.num + max size.toNat 1 ≤ 2 ^ 47 - 4096 →
    ∃ text, (mapDevice p size).run s =
      .ok (.ok 0) (s.withMemory (s.memory.noted .debug .space text))
  unmap : ∀ v, (unmap v).run s = .ok (.ok ()) s
  entry : ∀ v, s.entry v = .empty
  deviceAddress : ∀ p, s.deviceAddress p = p.val
  /-- Physical addresses have 48 bits. Wherever in them the range ends, callers get what they are
  promised, but the page in which it ends is taken back from anyone. -/
  serves : c.memory.stop.num ≤ 2 ^ 48 → s.memory.Serves
  /-- In a range of whole pages the counts are right, and only frames with an owner are taken
  back. -/
  exact : c.memory.stop.num ≤ 2 ^ 48 → c.memory.stop.num % 4096 = 0 →
    s.memory.Consistent ∧ ∀ p, s.memory.refusal p = none ↔ s.memory.Owned p

/-- No register but the vectors is written by what is mild. -/
theorem registers_of_mild {b b' : Board} {r : Register} (h : b.Only (Mild l) b') (hr : r ≠ .vbar) :
    b'.cpu.registers.get r = b.cpu.registers.get r := by
  obtain ⟨es, hes, hall⟩ := h
  rw [hes.registers, get_registers_of_unwritten fun v hmem => hr (hall _ hmem).1]

theorem Bypassed.harmless (h : Bypassed c l b w s) : Harmless c l b w s := by
  constructor
  case only => exact h.only
  case registers => exact fun r hr => registers_of_mild h.only hr
  case window => exact h.window
  case next => exact fun call => Call.mild_of_bypass l call h.mode
  case mapRange => exact fun start stop p f => run_mapNamed_bypass h.mode "dynamic" start stop p f
  case mapDevice =>
    intro p size hsize
    obtain ⟨r, hpages⟩ := exists_devicePages hsize
    exact run_mapDevice_bypass h.mode hpages
  case unmap => exact run_unmap_bypass h.mode
  case entry =>
    intro v
    rw [Space.entry, h.roots]
  case deviceAddress =>
    intro p
    rw [deviceAddress, h.mode, if_neg (by decide)]
  case serves => exact fun htop => (h.usable htop).serves
  case exact =>
    intro htop hstop
    have hconsistent := h.consistent htop hstop
    refine ⟨hconsistent, fun p => refusal_eq_none_iff hconsistent ?_⟩
    rw [h.region]
    exact hstop

/-- However a move was given up, nothing comes of it: whatever went before the boot and whatever
is asked after it. What is said of the frame store needs a range that ends inside the 48 bits of
physical addresses. Where the range ends inside a page, that page is taken back though nobody was
given it, and then more frames are counted as free than there are. -/
theorem boot_harmless {s₀ s₁ : Space} (hshows : b.ram.Shows w)
    (hinside : b.ram.Has c.memory.start.num (c.memory.stop.num - c.memory.start.num))
    (haligned : c.memory.start.num % 4096 = 0) (hbefore : Later (fresh c l b w) s₀)
    (hboot : boot s₀ = .ok .bypass s₁) (hafter : Later s₁ s) : Harmless c l b w s := by
  have hmode : s₁.mode = .bypass := by
    by_cases hunsettled : s₀.mode = .unsettled
    · exact (recorded_of_boot hunsettled hboot).1
    · rw [boot_again hunsettled] at hboot
      injection hboot with hsame hstate
      rw [← hstate]
      exact hsame
  have hbooted := bypassed_of_later hshows hinside haligned
    (hbefore.step .boot (run_bind_ok hboot)) hmode
  exact (Later.bypassed hbooted hafter).harmless

/-- The sample board with the bad table gives the move up when both roots have been made, tables
have been linked and every region has been recorded. -/
theorem boot_harmless_sample :
    ∃ s, boot (fresh sampleConfig brokenLayout sampleBoard .identity) = .ok .bypass s ∧
      s.abort = some ⟨.dualMapped, .relocation (.malformed 8)⟩ ∧
      Harmless sampleConfig brokenLayout sampleBoard .identity s := by
  obtain ⟨s, hboot, habort⟩ := boot_broken
  exact ⟨s, hboot, habort, boot_harmless hosted_sample.shows hosted_sample.inside (by decide)
    Later.refl hboot Later.refl⟩

end Space

end HighHalf
