import HighHalf.Proofs.Space.BeforeBoot
import HighHalf.Proofs.Space.TreesKept

/-!
# Tables and the frames that callers hold

Once the kernel is in the high half, callers take frames, give them back and ask for mappings,
in any order. The frame store knows which frames are used, and not what for: a frame that has
become a table can be given back like any other. As long as callers give back only what they
hold, the tables of both halves stay where they are, no table is ever handed out, and taking
frames and giving them back changes no walk.

## Main definitions

* `Space.IsTable`: one of the roots, or a table reached from them
* `Lending`: the address space and the frames that callers hold
* `Lending.Trades`, `Lending.Step`: what callers do with frames, and all that they do
-/

namespace HighHalf

open Event Board Memory Tables

variable {α δ : Type}

/-! ## Trees after the switch -/

namespace Memory

variable {m m' : Memory} {roots held : List PhysAddr} {w : Window} {range : PhysRange}
  {p : PhysAddr}

section Landing

variable (hframes : m'.frames = { m.frames with window := w })
  (hsame : Ram.SameOutside m.board.ram m'.board.ram range)
  (hbelow : range.stop.num ≤ m.frames.bitmap.num) (hw : m'.board.ram.Shows w)

include hframes hsame hbelow hw

/-- Another window and changes below the bitmap are nothing to the bitmap. -/
theorem Consistent.reseen (h : Consistent m) : Reseen m m' := by
  refine ⟨by rw [hframes], hsame.bank, by rwa [hframes], fun n hn => ?_⟩
  have hlow := h.bitmapInside.has.1
  have hin := hn.1
  exact hsame.cells n (by omega) (by omega)

/-- The trees are the same through another window, and after changes below the bitmap. -/
theorem Sound.landed (h : Sound m roots held) : Sound m' roots held := by
  have hc := h.consistent
  have hreseen := hc.reseen hframes hsame hbelow hw
  have hmarked := hreseen.marked hc
  have howned : ∀ p, m.Owned p → m'.Owned p := by
    rintro p ⟨⟨h1, h2, h3⟩, h4, h5⟩
    refine ⟨?_, (hmarked _).trans ?_, ?_⟩
    · rw [hframes]
      exact ⟨h1, h2, h3⟩
    · rw [hframes]
      exact h4
    · rw [hframes]
      exact h5
  refine (h.of_frames (hreseen.consistent hc) (by rw [hframes]) (by rw [hframes])
    hsame.bank ?_ fun p hp => ⟨hp, howned p (h.held_owned p hp)⟩).1
  intro root hroot path t hr
  have ho := h.owned root hroot path t hr
  refine ⟨howned t ho, hsame.sameOn (hc.has ho.managed).1 (Or.inr ?_)⟩
  -- The bitmap lies below the frames that are handed out.
  have h1 := ho.managed.low
  have h2 := hc.plan.bitmap_high
  omega

end Landing

end Memory

/-- The tree of the half that an address is in is one of the two. -/
theorem Roots.mem_halves (roots : Roots) (v : VirtAddr) :
    (if v.high then roots.high else roots.low) ∈ [roots.high, roots.low] := by
  cases v.high <;> simp

namespace Space

variable {c : MemoryConfig} {l : ImageLayout} {s s' : Space} {b : Board} {w : Window} {n : Nat}
  {roots : Roots} {m : Memory} {x : Transition.Crossing} {rs held : List PhysAddr}
  {root t p : PhysAddr} {call : Call}

/-- After the checks only words of the data are stored. -/
theorem sameOutside_of_crossed (h : Transition.Passed c l b w roots m)
    (hc : Transition.Crossed c l b w roots m s x) :
    Ram.SameOutside m.board.ram s.memory.board.ram l.data := by
  rw [hc.happens.ram]
  refine sameOutside_replay h.mirrored h.data ?_
  rw [List.forall_mem_append, List.forall_mem_cons]
  exact ⟨fun e he => Transition.spares_of_still (hc.arms.still e he), nofun, h.spares hc⟩

/-- The frames are reached through the window that the move has left. -/
theorem shows_of_crossed (h : Transition.Passed c l b w roots m)
    (hc : Transition.Crossed c l b w roots m s x) :
    s.memory.board.ram.Shows s.memory.frames.window := by
  rw [hc.frames]
  exact (sameOutside_of_crossed h hc).bank.shows h.mirrored

/-- At the end of a boot in the high half the trees are what they were when they were checked. -/
theorem sound_of_crossed (h : Transition.Passed c l b w roots m)
    (hc : Transition.Crossed c l b w roots m s x) : s.memory.Sound [roots.high, roots.low] [] := by
  have hshows := shows_of_crossed h hc
  rw [hc.frames] at hshows
  exact h.sound.landed hc.frames (sameOutside_of_crossed h hc) h.bitmap hshows

theorem lookup_of_crossed (h : Transition.Passed c l b w roots m)
    (hc : Transition.Crossed c l b w roots m s x) (hroot : root ∈ [roots.high, roots.low])
    (v : VirtAddr) : s.memory.lookup root v = m.lookup root v :=
  h.lookup_eq (sameOutside_of_crossed h hc) (shows_of_crossed h hc) hroot v

/-! ## Calls that take no frame -/

/-- What neither takes a frame nor gives one back. -/
def Call.Plain : Call → Prop
  | .allocate | .release _ => False
  | _ => True

/-- What a call that takes no frame comes to once the mode is settled: it looks at the state, or it
maps or unmaps. -/
inductive Call.Does (s s' : Space) : Call → Prop
  | looks (call : Call) : Looked s s' → Does s s' call
  | mapRange (start stop : VirtAddr) (p : PhysAddr) (f : Flags) {r : Except MapError Nat} :
      (Space.mapRange start stop p f).run s = .ok r s' → Does s s' (.mapRange start stop p f)
  | mapDevice (p : PhysAddr) (size : Word) {r : Except MapError Nat} :
      (Space.mapDevice p size).run s = .ok r s' → Does s s' (.mapDevice p size)
  | unmap (v : VirtAddr) {r : Except MapError Unit} :
      (Space.unmap v).run s = .ok r s' → Does s s' (.unmap v)

theorem Call.does_of_run (hcall : call.Plain) (hmode : s.mode = .resolved)
    (hrun : call.run s = .ok () s') : Call.Does s s' call := by
  by_cases hlooks : call.Looks
  · exact .looks _ ((Call.looked hlooks).of_ok hrun)
  · cases call with
    | boot =>
      rw [Call.run, run_bind_ok (boot_again (by rw [hmode]; decide))] at hrun
      cases hrun
      exact .looks _ (looked_noted ..)
    | mapRange start stop p f =>
      obtain ⟨r, s₁, hmap, hdone⟩ := exists_of_run_bind hrun
      cases hdone
      exact .mapRange start stop p f hmap
    | mapDevice p size =>
      obtain ⟨r, s₁, hmap, hdone⟩ := exists_of_run_bind hrun
      cases hdone
      exact .mapDevice p size hmap
    | unmap v =>
      obtain ⟨r, s₁, hunmap, hdone⟩ := exists_of_run_bind hrun
      cases hdone
      exact .unmap v hunmap
    | allocate => exact absurd hcall id
    | release p => exact absurd hcall id
    | _ => exact absurd trivial hlooks

/-- Every call but a request for a frame keeps the trees sound and all their tables in place. -/
theorem Call.grows (hcall : call.Plain) (hroots : s.roots = some roots)
    (hmode : s.mode = .resolved) (hs : s.memory.Sound [roots.high, roots.low] held)
    (hrun : call.run s = .ok () s') : Grows s.memory s'.memory [roots.high, roots.low] held := by
  cases Call.does_of_run hcall hmode hrun with
  | looks _ h =>
    have hram := h.reads.ram
    obtain ⟨b, rfl⟩ := h.kept
    have hkeeps := keeps_board (m := s.memory) (b := b) hram
    exact (grows_spares hs (hkeeps.spares hs.consistent)).1
  | mapRange start stop p f hmap => exact grows_mapNamed hroots hmode _ _ _ _ _ hs hmap
  | mapDevice p size hmap => exact grows_mapDevice hroots hmode p size hs hmap
  | unmap v hunmap => exact grows_unmap hroots hmode v hs hunmap

/-! ## Requests for frames -/

/-- The frame at `t` is one of the two roots, or a table that is reached from them. -/
def IsTable (s : Space) (t : PhysAddr) : Prop :=
  ∃ roots, s.roots = some roots ∧ ∃ root ∈ [roots.high, roots.low], ∃ path : List Nat,
    s.memory.Reaches root path t

theorem isTable_iff (hroots : s.roots = some roots) :
    s.IsTable t ↔ ∃ root ∈ [roots.high, roots.low], ∃ path : List Nat,
      s.memory.Reaches root path t := by
  constructor
  · rintro ⟨roots', hroots', h⟩
    rw [hroots, Option.some.injEq] at hroots'
    rwa [hroots']
  · exact fun h => ⟨roots, hroots, h⟩

/-- A table that is reached before is reached after. -/
theorem IsTable.grows (hroots : s.roots = some roots) (hkept : s'.roots = s.roots)
    (hreaches : ∀ root ∈ [roots.high, roots.low], ∀ path t, s.memory.Reaches root path t →
      s'.memory.Reaches root path t) (h : s.IsTable t) : s'.IsTable t := by
  obtain ⟨root, hroot, path, hr⟩ := (isTable_iff hroots).1 h
  exact (isTable_iff (hkept.trans hroots)).2 ⟨root, hroot, path, hreaches root hroot path t hr⟩

/-- A table is owned, and by no caller. -/
theorem IsTable.owned (hroots : s.roots = some roots)
    (hs : s.memory.Sound [roots.high, roots.low] held) (h : s.IsTable t) :
    s.memory.Owned t ∧ t ∉ held := by
  obtain ⟨root, hroot, path, hr⟩ := (isTable_iff hroots).1 h
  exact ⟨hs.owned root hroot path t hr, hs.not_held root hroot path t hr⟩

/-- Where both trees have the leaves they had, every address has the entry it had. -/
theorem entry_eq_of_lookup (hroots : s.roots = some roots) (hkept : s'.roots = s.roots)
    (hlookup : ∀ root ∈ [roots.high, roots.low], ∀ v, s'.memory.lookup root v =
      s.memory.lookup root v) (v : VirtAddr) : s'.entry v = s.entry v := by
  unfold entry
  rw [hkept, hroots]
  exact hlookup _ (roots.mem_halves v) v

end Space

/-- The address space, and the frames that callers hold. -/
structure Lending where
  space : Space
  held : List PhysAddr

namespace Lending

open Space

/-- What callers do with frames. Only a frame that is held is given back; any other address may
be tried as long as it is refused. -/
inductive Trades : Lending → Lending → Prop
  | granted {s s' : Space} {held : List PhysAddr} {p : PhysAddr} :
      allocate s = .ok (some p) s' → Trades ⟨s, held⟩ ⟨s', p :: held⟩
  | unmet {s s' : Space} {held : List PhysAddr} :
      allocate s = .ok none s' → Trades ⟨s, held⟩ ⟨s', held⟩
  | returned {s s' : Space} {held : List PhysAddr} {p : PhysAddr} : p ∈ held →
      release p s = .ok (.ok ()) s' → Trades ⟨s, held⟩ ⟨s', held.filter (· ≠ p)⟩
  | refused {s s' : Space} {held : List PhysAddr} {p : PhysAddr} {e : FrameError} :
      release p s = .ok (.error e) s' → Trades ⟨s, held⟩ ⟨s', held⟩

/-- What callers do: requests for frames, and any other call that returns. -/
inductive Step : Lending → Lending → Prop
  | trade {x y : Lending} : Trades x y → Step x y
  | call {s s' : Space} {held : List PhysAddr} (call : Call) : call.Plain →
      call.run s = .ok () s' → Step ⟨s, held⟩ ⟨s', held⟩

/-- The address space resolves, and its trees are sound beside the frames that callers hold. -/
structure Orderly (x : Lending) (roots : Roots) : Prop where
  mode : x.space.mode = .resolved
  recorded : x.space.roots = some roots
  sound : x.space.memory.Sound [roots.high, roots.low] x.held

/-- Where a run can be: before the boot, in the high half, or with address resolution off for
good. -/
inductive Standing (c : MemoryConfig) (l : ImageLayout) (b : Board) (w : Window) (x : Lending) :
    Prop
  | waiting (b' : Board) (n : Nat) (space : x.space = asked c l b' w n) (held : x.held = [])
      (reads : b.Reads b')
  | orderly (roots : Roots) (orderly : x.Orderly roots)
  | bypass (mode : x.space.mode = .bypass)

variable {c : MemoryConfig} {l : ImageLayout} {b : Board} {w : Window} {x y : Lending}
  {roots : Roots} {t : PhysAddr}

theorem Trades.served (h : Trades x y) : Served x.space y.space := by
  cases h with
  | granted hrun =>
    exact (served_onMemory (Memory.emits_allocate.mono fun _ => Builds.unwritten)).of_ok hrun
  | unmet hrun =>
    exact (served_onMemory (Memory.emits_allocate.mono fun _ => Builds.unwritten)).of_ok hrun
  | returned _ hrun =>
    exact (served_onMemory ((Memory.emits_release _).mono fun _ => Builds.unwritten)).of_ok hrun
  | refused hrun =>
    exact (served_onMemory ((Memory.emits_release _).mono fun _ => Builds.unwritten)).of_ok hrun

theorem roots_of_served {s s' : Space} (h : Served s s') : s'.roots = s.roots := by
  obtain ⟨m, ledger, rfl⟩ := h.kept
  rfl

/-- Taking and giving back frames leaves every tree as it is. -/
theorem Orderly.trades (h : x.Orderly roots) (htrade : Trades x y) :
    y.Orderly roots ∧ Extends x.space.memory y.space.memory [roots.high, roots.low] := by
  have hserved := htrade.served
  have hs := h.sound
  obtain ⟨hsound, hextends⟩ :
      y.space.memory.Sound [roots.high, roots.low] y.held ∧
        Extends x.space.memory y.space.memory [roots.high, roots.low] := by
    cases htrade with
    | granted hrun =>
      obtain ⟨m, hm, rfl⟩ := exists_of_onMemory hrun
      rcases allocate_spec hs.consistent with ⟨m', hno, -⟩ | ⟨p, m', hyes, hspares, hgrants⟩
      · rw [hno] at hm
        cases hm
      · rw [hyes] at hm
        cases hm
        obtain ⟨hsound, hextends⟩ := hs.spares hspares
        exact ⟨hsound.hold (hs.granted hspares hgrants), hextends⟩
    | unmet hrun =>
      obtain ⟨m, hm, rfl⟩ := exists_of_onMemory hrun
      rcases allocate_spec hs.consistent with ⟨m', hno, hkeeps, -⟩ | ⟨p, m', hyes, -⟩
      · rw [hno] at hm
        cases hm
        exact hs.spares (hkeeps.spares hs.consistent)
      · rw [hyes] at hm
        cases hm
    | returned hp hrun =>
      obtain ⟨m, hm, rfl⟩ := exists_of_onMemory hrun
      obtain ⟨m', hyes, hreleases⟩ := release_spec hs.consistent (hs.held_owned _ hp)
      rw [hyes] at hm
      cases hm
      exact hs.release hp hreleases
    | refused hrun =>
      obtain ⟨m, hm, rfl⟩ := exists_of_onMemory hrun
      rcases refusal_of_release hm with ⟨hyes, -⟩ | ⟨e, -, -, hkeeps⟩
      · cases hyes
      · exact hs.spares (hkeeps.spares hs.consistent)
  exact ⟨⟨hserved.mode_eq.trans h.mode, (roots_of_served hserved).trans h.recorded, hsound⟩,
    hextends⟩

/-- No step takes a table away. -/
theorem Orderly.step (h : x.Orderly roots) (hstep : Step x y) :
    y.Orderly roots ∧ ∀ t, x.space.IsTable t → y.space.IsTable t := by
  cases hstep with
  | trade htrade =>
    obtain ⟨hy, hextends⟩ := h.trades htrade
    exact ⟨hy, fun t => IsTable.grows h.recorded (roots_of_served htrade.served) hextends.reaches⟩
  | call call hplain hrun =>
    have hgrows := Call.grows hplain h.recorded h.mode h.sound hrun
    have hserved := (Later.refl.step call hrun).served (by rw [h.mode]; decide)
    have hkept := roots_of_served hserved
    exact ⟨⟨hserved.mode_eq.trans h.mode, hkept.trans h.recorded, hgrows.sound⟩,
      fun t => IsTable.grows h.recorded hkept hgrows.reaches⟩

/-! ## Runs -/

theorem Standing.of_boot {s : Space} {mode : Mode} {b' : Board} {n : Nat} {held : List PhysAddr}
    (h : Transition.Hosted c l b w) (htop : c.memory.stop.num ≤ 2 ^ 48) (hreads : b.Reads b')
    (hheld : held = []) (hboot : boot (asked c l b' w n) = .ok mode s) :
    Standing c l b w ⟨s, held⟩ := by
  have hhosted : Transition.Hosted c l b' w :=
    h.congr (by rw [hreads.ram]; exact Ram.SameBank.refl _) hreads.behaviour
  obtain ⟨m, s₁, s₂, -, hs, ⟨arrival, -, -, rfl⟩ | ⟨a, -, -, rfl⟩⟩ := boot_cases rfl hboot
  · obtain ⟨roots, m, x, hpassed, hcrossed⟩ := crossed_of_asked hhosted htop hboot
    refine .orderly roots ⟨by rw [hs], hcrossed.kept, ?_⟩
    rw [hheld]
    exact sound_of_crossed hpassed hcrossed
  · exact .bypass (by rw [hs])

/-- Before the boot no frame is handed out, so none is given back. -/
theorem Trades.waits {s : Space} (h : Trades ⟨s, []⟩ y)
    (hready : s.memory.frames.ready = false) : Waits s y.space ∧ y.held = [] := by
  obtain ⟨s₁, hnone, hwaits₁⟩ := run_allocate_unready hready
  cases h with
  | granted hrun =>
    rw [hnone] at hrun
    cases hrun
  | unmet hrun =>
    rw [hnone] at hrun
    cases hrun
    exact ⟨hwaits₁, rfl⟩
  | returned hp => exact absurd hp List.not_mem_nil
  | @refused _ s' _ p e hrun =>
    obtain ⟨s₂, hno, hwaits₂⟩ := run_release_unready hready p
    rw [hno] at hrun
    cases hrun
    exact ⟨hwaits₂, rfl⟩

theorem Step.served (h : Step x y) (hmode : x.space.mode ≠ .unsettled) :
    Served x.space y.space := by
  cases h with
  | trade htrade => exact htrade.served
  | call call hplain hrun => exact (Later.refl.step call hrun).served hmode

theorem Standing.step (h : Transition.Hosted c l b w) (htop : c.memory.stop.num ≤ 2 ^ 48)
    (hx : x.Standing c l b w) (hstep : Step x y) : y.Standing c l b w := by
  cases hx with
  | waiting b' n hspace hheld hreads =>
    obtain ⟨s, held⟩ := x
    obtain rfl : s = asked c l b' w n := hspace
    obtain rfl : held = [] := hheld
    cases hstep with
    | trade htrade =>
      obtain ⟨hwaits, hheld⟩ := htrade.waits rfl
      obtain ⟨b'', k, hs, hreads'⟩ := hwaits.asked
      exact .waiting b'' k hs hheld (hreads.trans hreads')
    | call call hplain hrun =>
      rcases Call.cases_of_asked hrun with ⟨b'', k, hs, hreads'⟩ | ⟨mode, hboot⟩
      · exact .waiting b'' k hs rfl (hreads.trans hreads')
      · exact .of_boot h htop hreads rfl hboot
  | orderly roots horderly => exact .orderly roots (horderly.step hstep).1
  | bypass hmode =>
    have hserved := hstep.served (by rw [hmode]; decide)
    exact .bypass (hserved.mode_eq.trans hmode)

/-- Every run is in one of the three standings. -/
theorem standing_of_run (h : Transition.Hosted c l b w) (htop : c.memory.stop.num ≤ 2 ^ 48)
    (hrun : Relation.ReflTransGen Step ⟨fresh c l b w, []⟩ x) : x.Standing c l b w := by
  induction hrun with
  | refl => exact .waiting b 0 rfl rfl (Reads.refl b)
  | tail _ hstep ih => exact ih.step h htop hstep

/-- What holds after every boot that ends in the high half, and is kept by every step from then
on, holds of every run that has come to the high half. -/
theorem resolved_of_run {P : Lending → Prop} {R : Lending → Lending → Prop}
    (h : Transition.Hosted c l b w) (htop : c.memory.stop.num ≤ 2 ^ 48)
    (hR : ∀ {x y}, R x y → Step x y)
    (hboot : ∀ {b' n s}, Transition.Hosted c l b' w → b.Reads b' →
      boot (asked c l b' w n) = .ok .resolved s → P ⟨s, []⟩)
    (hstep : ∀ {x y roots}, x.Orderly roots → P x → R x y → P y)
    (hrun : Relation.ReflTransGen R ⟨fresh c l b w, []⟩ x) (hmode : x.space.mode = .resolved) :
    P x := by
  induction hrun with
  | refl => cases hmode
  | @tail x y hbefore hnext ih =>
    have hsteps : Relation.ReflTransGen Step ⟨fresh c l b w, []⟩ x :=
      Relation.ReflTransGen.mono (fun _ _ => hR) _ _ hbefore
    cases standing_of_run h htop hsteps with
    | waiting b' n hspace hheld hreads =>
      obtain ⟨s, held⟩ := x
      obtain rfl : s = asked c l b' w n := hspace
      obtain rfl : held = [] := hheld
      cases hR hnext with
      | trade htrade =>
        obtain ⟨hwaits, -⟩ := htrade.waits rfl
        obtain ⟨b'', k, hs, -⟩ := hwaits.asked
        rw [hs] at hmode
        cases hmode
      | call call hplain hcall =>
        rcases Call.cases_of_asked hcall with ⟨b'', k, hs, -⟩ | ⟨mode, hbooted⟩
        · rw [hs] at hmode
          cases hmode
        · obtain ⟨m, s₁, s₂, -, hs, ⟨arrival, -, -, rfl⟩ | ⟨a, -, -, rfl⟩⟩ :=
            boot_cases rfl hbooted
          · refine hboot (h.congr ?_ hreads.behaviour) hreads hbooted
            rw [hreads.ram]
            exact Ram.SameBank.refl _
          · rw [hs] at hmode
            cases hmode
    | orderly roots horderly => exact hstep horderly (ih horderly.mode) hnext
    | bypass hbypass =>
      have hserved := (hR hnext).served (by rw [hbypass]; decide)
      rw [hserved.mode_eq, hbypass] at hmode
      cases hmode

/-- What holds of the tables while addresses are being resolved. -/
structure Permanent (x : Lending) : Prop where
  /-- No caller holds a table. -/
  unheld : ∀ t, x.space.IsTable t → t ∉ x.held
  /-- No table is handed out, neither to a caller nor as a table. -/
  ungranted : ∀ t, x.space.IsTable t → (∀ m, Memory.allocate x.space.memory ≠ .ok (some t) m) ∧
    ∀ m, Memory.allocateTable x.space.memory ≠ .ok (some t) m
  /-- Whatever callers do, a table stays a table. -/
  stays : ∀ y, Relation.ReflTransGen Step x y → ∀ t, x.space.IsTable t → y.space.IsTable t
  /-- Taking frames and giving them back changes the entry of no address. -/
  entries : ∀ y, Relation.ReflTransGen Trades x y → ∀ v, y.space.entry v = x.space.entry v

theorem Orderly.permanent (h : x.Orderly roots) : x.Permanent where
  unheld := fun t ht => (ht.owned h.recorded h.sound).2
  ungranted := by
    intro t ht
    have hc := h.sound.consistent
    have howned := (ht.owned h.recorded h.sound).1
    constructor
    · intro m hm
      rcases allocate_spec hc with ⟨m', hno, -⟩ | ⟨p, m', hyes, -, hgrants⟩
      · rw [hno] at hm
        cases hm
      · rw [hyes] at hm
        cases hm
        exact hgrants.not_owned howned
    · intro m hm
      rcases allocateTable_spec hc with ⟨m', hno, -⟩ | ⟨p, m', hyes, -, hgrants⟩
      · rw [hno] at hm
        cases hm
      · rw [hyes] at hm
        cases hm
        exact hgrants.not_owned howned
  stays := by
    intro y hrun t ht
    have hall : y.Orderly roots ∧ y.space.IsTable t := by
      induction hrun with
      | refl => exact ⟨h, ht⟩
      | tail _ hstep ih =>
        obtain ⟨hy, hkeeps⟩ := ih.1.step hstep
        exact ⟨hy, hkeeps t ih.2⟩
    exact hall.2
  entries := by
    intro y hrun v
    have hall : y.Orderly roots ∧ y.space.entry v = x.space.entry v := by
      induction hrun with
      | refl => exact ⟨h, rfl⟩
      | tail _ htrade ih =>
        obtain ⟨hy, hextends⟩ := ih.1.trades htrade
        have hkept := roots_of_served htrade.served
        exact ⟨hy, (entry_eq_of_lookup ih.1.recorded hkept hextends.lookup v).trans ih.2⟩
    exact hall.2

/-- The frame store takes a table back like any frame that is used; the trees go on using it. -/
theorem Orderly.release_table (h : x.Orderly roots) (ht : x.space.IsTable t) :
    ∃ s, release t x.space = .ok (.ok ()) s ∧ s.memory.isUsed t = false ∧ s.IsTable t := by
  obtain ⟨howned, hheld⟩ := ht.owned h.recorded h.sound
  have hc := h.sound.consistent
  obtain ⟨m, hrun, hreleases⟩ := release_spec hc howned
  refine ⟨x.space.withMemory m, run_onMemory (s := x.space) hrun, ?_, ?_⟩
  · have hman := hreleases.plan.manages.2 howned.managed
    have hpark : t ∉ m.frames.pool := by
      rw [hreleases.frames]
      exact howned.not_parked
    -- Of what makes a frame owned, only the mark can be missing.
    have hunmarked : m.marked (m.frames.indexOf t) = false := by
      rw [Bool.eq_false_iff]
      exact fun hmark => ((hreleases.owned t).1 ⟨hman, hmark, hpark⟩).2 rfl
    rw [memory_withMemory, isUsed, hunmarked]
    have hlow := hman.low
    have hhigh := hman.high
    have htotal := hreleases.consistent.plan.total_eq
    have hin : m.frames.region.contains t = true := by
      rw [PhysRange.contains_iff]
      show m.frames.region.start.num ≤ t.num ∧ t.num < m.frames.region.stop.num
      omega
    rw [hin, hreleases.consistent.plan.ready]
    rfl
  · -- Only the bitmap changes, so every table can still be walked.
    refine IsTable.grows (s := x.space) h.recorded rfl (fun root hroot path u hu => ?_) ht
    refine (reaches_congr fun path u hu _ i hi => ?_).2 hu
    have ho := (h.sound.owned root hroot path u hu).managed
    have hlow := (hc.has ho).1
    refine Tables.entry_congr hc.shows hreleases.consistent.shows hreleases.bank (hc.has ho) hi ?_
    intro n hn hn'
    exact hreleases.cells n (by omega) (hc.not_inBitmap ho hn)

/-- In every state in the high half that is reached while callers give back only frames that they
hold, the tables are permanent. Nothing but the callers makes them so: any table at all is taken
back when it is given back, and is free from then on although the trees still use it. -/
theorem tables_permanent (h : Transition.Hosted c l b w) (htop : c.memory.stop.num ≤ 2 ^ 48)
    (hrun : Relation.ReflTransGen Step ⟨fresh c l b w, []⟩ x) (hmode : x.space.mode = .resolved) :
    x.Permanent ∧ ∀ t, x.space.IsTable t →
      ∃ s, release t x.space = .ok (.ok ()) s ∧ s.memory.isUsed t = false ∧ s.IsTable t := by
  cases standing_of_run h htop hrun with
  | waiting b' n hspace =>
    rw [hspace] at hmode
    cases hmode
  | orderly roots horderly => exact ⟨horderly.permanent, fun t => horderly.release_table⟩
  | bypass hbypass =>
    rw [hbypass] at hmode
    cases hmode

/-- The sample board after its boot: both roots are tables, and either can be given back. -/
theorem tables_permanent_sample :
    ∃ s roots,
      boot (fresh sampleConfig SampleBoard.layout sampleBoard .identity) = .ok .resolved s ∧
      Relation.ReflTransGen Step ⟨fresh sampleConfig SampleBoard.layout sampleBoard .identity, []⟩
        ⟨s, []⟩ ∧
      s.roots = some roots ∧ s.mode = .resolved ∧ Permanent ⟨s, []⟩ ∧
      ∃ s', release roots.high s = .ok (.ok ()) s' ∧ s'.memory.isUsed roots.high = false ∧
        s'.IsTable roots.high := by
  obtain ⟨s, hboot⟩ := boot_resolves_sample
  obtain ⟨roots, m, x, -, hcrossed⟩ := crossed_of_boot hosted_sample (by decide) hboot
  obtain ⟨hmode, -⟩ := recorded_of_boot rfl hboot
  have hstep : Step ⟨fresh sampleConfig SampleBoard.layout sampleBoard .identity, []⟩ ⟨s, []⟩ :=
    .call .boot trivial (run_bind_ok hboot)
  have hrun := Relation.ReflTransGen.single hstep
  obtain ⟨hpermanent, hfreed⟩ := tables_permanent hosted_sample (by decide) hrun hmode
  have htable : s.IsTable roots.high :=
    (isTable_iff hcrossed.kept).2 ⟨roots.high, by simp, [], Reaches.root⟩
  exact ⟨s, roots, hboot, hrun, hcrossed.kept, hmode, hpermanent, hfreed _ htable⟩

end Lending

end HighHalf
