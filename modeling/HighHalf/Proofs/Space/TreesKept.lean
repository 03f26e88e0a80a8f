import HighHalf.Space.Request
import HighHalf.Proofs.Boot.Course

/-!
# Steps that keep the trees

Whatever is mapped or unmapped below the roots, and whatever way that ends, the trees stay sound
and keep all their tables. That holds of the requests of the rest of the kernel, and of the parts
of the move up to the switch. What holds of the steps that those parts are made of is followed
through them once for all.

## Main definitions

* `Space.Tends`: sound trees stay sound and keep their tables
* `Transition.Permits`: a relation that holds of every step from the roots to the switch
* `Transition.Admits`: a relation that holds of every step of the move up to the switch
-/

namespace HighHalf

open Event Board Memory Tables

variable {α δ : Type}

namespace Space

variable {c : MemoryConfig} {l : ImageLayout} {s s' : Space} {roots : Roots}
  {rs held : List PhysAddr} {root p : PhysAddr} {name : String} {start stop v : VirtAddr}
  {f : Flags}

/-! ## Steps that keep the trees -/

/-- If the trees are sound, they stay so and keep all their tables. -/
def Tends (rs held : List PhysAddr) (s s' : Space) : Prop :=
  s.memory.Sound rs held → Grows s.memory s'.memory rs held

instance : Std.Refl (Tends rs held) := ⟨fun _ h => Grows.refl h⟩

instance : IsTrans Space (Tends rs held) :=
  ⟨fun _ _ _ h h' hs => (h hs).trans (h' (h hs).sound)⟩

/-- A step on the board that stores nothing is nothing to the trees. -/
theorem tends_board {x : BoardM α} (hx : Emits Still x) :
    Ensures (Tends rs held) (liftM x : SpaceM α) := by
  refine ⟨fun hrun hs => ?_⟩
  obtain ⟨b, hb, rfl⟩ := exists_of_board hrun
  have hkeeps := keeps_board (hx.ram_eq (fun s h => h s rfl) hb)
  exact (grows_spares hs (hkeeps.spares hs.consistent)).1

theorem tends_boardE {x : BoardM α} (hx : Emits Still x) :
    Ensures (Tends rs held) (liftM (liftM x : SpaceM α) : ExceptT δ SpaceM α).run :=
  ensures_lift (tends_board hx)

theorem tends_record (mapping : Mapping) : Ensures (Tends rs held) (record mapping) := by
  unfold record
  refine ensures_bind ensures_get fun s => ?_
  refine ensures_bind (tends_board (Ledger.emits_record ..)) fun l => ⟨fun hrun hs => ?_⟩
  cases hrun
  exact Grows.refl hs

theorem tends_dropCached {δ : Type} : Ensures (Tends rs held)
    (liftM (liftM Control.dropCached : SpaceM Unit) : ExceptT δ SpaceM Unit).run :=
  tends_boardE (Control.emits_dropCached fun e he => (Control.quiet_dropping e he).still)

theorem tends_mapRange (hroot : root ∈ rs) (start stop : VirtAddr) (p : PhysAddr) (f : Flags) :
    Ensures (Tends rs held) (Space.onMemory (Tables.mapRange root start stop p f).run) := by
  refine ⟨fun {s r s'} hrun hs => ?_⟩
  obtain ⟨m, hm, rfl⟩ := exists_of_onMemory hrun
  have hspec := mapRange_spec start stop p f hs hroot
  rw [show (Tables.mapRange root start stop p f).run s.memory = .ok r m from hm] at hspec
  cases r with
  | error e => exact hspec.1
  | ok k => exact hspec.1

/-! ## Requests for mappings -/

/-- A device has one byte at least. -/
theorem toNat_deviceSize (size : Word) :
    (if size = 0 then 1 else size : Word).toNat = max size.toNat 1 := by
  by_cases hsize : size = 0
  · rw [if_pos hsize, hsize]
    rfl
  · rw [if_neg hsize]
    have hne : size.toNat ≠ 0 := fun hzero => hsize (UInt64.toNat_inj.1 hzero)
    omega

/-- The pages of a device run from the page of its first byte to the end of that of its last one,
unless they come near the end of what has a high alias. -/
theorem devicePages_cases (p : PhysAddr) (size : Word) :
    2 ^ 47 - 4096 < p.num + max size.toNat 1 ∧ devicePages p size = none ∨
      p.num + max size.toNat 1 ≤ 2 ^ 47 - 4096 ∧ ∃ r, devicePages p size = some r ∧
        r.start.num = p.num / 4096 * 4096 ∧
        r.stop.num = (p.num + max size.toNat 1 + 4095) / 4096 * 4096 := by
  have hbytes := toNat_deviceSize size
  have hnum : p.val.toNat = p.num := rfl
  have hmask : pageMask.toNat = 4095 := rfl
  unfold devicePages
  cases hstop : p.val.add? (if size = 0 then 1 else size) with
  | none =>
    rw [Word.add?_eq_none_iff, hbytes, hnum] at hstop
    exact Or.inl ⟨by omega, rfl⟩
  | some stop =>
    rw [Word.add?_eq_some_iff, hbytes, hnum] at hstop
    have hlimit : highAliasLimit - pageSize < stop ↔ 2 ^ 47 - 4096 < stop.toNat := by
      rw [UInt64.lt_iff_toNat_lt, show (highAliasLimit - pageSize).toNat = 2 ^ 47 - 4096 by decide]
    by_cases hfar : 2 ^ 47 - 4096 < stop.toNat
    · exact Or.inl ⟨by omega, if_pos (hlimit.2 hfar)⟩
    · refine Or.inr ⟨by omega, _, if_neg fun h => hfar (hlimit.1 h), PhysAddr.num_floor p, ?_⟩
      rw [PhysAddr.num_mk, Word.toNat_and_not_pageMask, UInt64.toNat_add, hmask, ← hstop]
      omega

/-- The bounds of the pages of a device. -/
theorem num_devicePages {p : PhysAddr} {size : Word} {r : PhysRange}
    (h : devicePages p size = some r) :
    p.num + max size.toNat 1 ≤ 2 ^ 47 - 4096 ∧ r.start.num = p.num / 4096 * 4096 ∧
      r.stop.num = (p.num + max size.toNat 1 + 4095) / 4096 * 4096 := by
  rcases devicePages_cases p size with ⟨-, hnone⟩ | ⟨hfits, r', hpages, hbounds⟩
  · cases h.symm.trans hnone
  · cases h.symm.trans hpages
    exact ⟨hfits, hbounds⟩

/-- What is left of mapping a range once its root is known. -/
def mapBelow (root : PhysAddr) (name : String) (start stop : VirtAddr) (p : PhysAddr)
    (f : Flags) : RequestM Nat := do
  let mapped ← ExceptT.lift (Space.onMemory (Tables.mapRange root start stop p f).run)
  Control.dropCached
  let pages ← mapped
  Space.record ⟨name, start, stop, p, f⟩
  Board.note .debug .space s!"mapped {pages} pages at {start} -> {p}"
  return pages

/-- A request for a mapping is refused on the spot if its range has no root. -/
theorem run_mapNamed_refused {e : MapError} (hmode : s.mode = .resolved)
    (hroot : s.rootFor start stop = .error e) :
    (mapNamed name start stop p f).run s = .ok (.error e) s := by
  unfold mapNamed
  rw [run_bindE_ok (run_getE s), hmode]
  refine (run_bindE_ok (run_getE s)).trans ?_
  rw [hroot]
  exact run_bindE_fail (run_refusedE e s)

/-- A range that has a root is mapped below it. -/
theorem run_mapNamed_of_root (hmode : s.mode = .resolved)
    (hroot : s.rootFor start stop = .ok root) :
    (mapNamed name start stop p f).run s = (mapBelow root name start stop p f).run s := by
  unfold mapNamed
  rw [run_bindE_ok (run_getE s), hmode]
  refine (run_bindE_ok (run_getE s)).trans ?_
  rw [hroot, run_bindE_ok (run_checkE root s)]
  rfl

theorem tends_mapBelow (hroot : root ∈ rs) (name : String) (start stop : VirtAddr) (p : PhysAddr)
    (f : Flags) : Ensures (Tends rs held) (mapBelow root name start stop p f).run := by
  unfold mapBelow
  refine ensures_bindE (ensures_lift (tends_mapRange hroot ..)) fun mapped => ?_
  refine ensures_bindE tends_dropCached fun _ => ensures_bindE (ensures_checkE _) fun pages => ?_
  refine ensures_bindE (ensures_lift (tends_record _)) fun _ => ?_
  exact ensures_bindE (tends_boardE (emits_note ..)) fun _ => ensures_pureE _

/-- What is left of unmapping a page once its root is known. -/
def unmapBelow (window : Window) (root : PhysAddr) (v : VirtAddr) : RequestM Unit := do
  let old ← Space.onBoard (Tables.unmapPage window root v)
  Control.dropCached
  let seen := old.describe
  Board.note .debug .space s!"unmapped {v} (was {seen})"

/-- A page that has no root is refused on the spot. -/
theorem run_unmap_refused {e : MapError} (hmode : s.mode = .resolved)
    (hroot : s.rootFor v.floor (v.floor.add pageSize) = .error e) :
    (unmap v).run s = .ok (.error e) s := by
  unfold unmap
  rw [run_bindE_ok (run_getE s), hmode]
  refine (run_bindE_ok (run_getE s)).trans ?_
  rw [hroot]
  exact run_bindE_fail (run_refusedE e s)

/-- A page that has a root is unmapped below it. -/
theorem run_unmap_of_root (hmode : s.mode = .resolved)
    (hroot : s.rootFor v.floor (v.floor.add pageSize) = .ok root) :
    (unmap v).run s = (unmapBelow s.memory.frames.window root v.floor).run s := by
  unfold unmap
  rw [run_bindE_ok (run_getE s), hmode]
  refine (run_bindE_ok (run_getE s)).trans ?_
  rw [hroot, run_bindE_ok (run_checkE root s), run_bindE_ok (run_getE s)]
  rfl

/-- The page is unmapped through the window of the frames. -/
theorem grows_unmapBelow {r : Except MapError Unit} (hroot : root ∈ rs) (v : VirtAddr)
    (hs : s.memory.Sound rs held)
    (hrun : (unmapBelow s.memory.frames.window root v).run s = .ok r s') :
    Grows s.memory s'.memory rs held := by
  obtain ⟨r₁, s₁, hunmap, hrest⟩ := exists_of_run_bind (f := ExceptT.bindCont _) hrun
  obtain ⟨m₁, hm₁, rfl⟩ := exists_of_onMemory hunmap
  have hrest' : ∀ old : Entry, Ensures (Tends rs held) (do
      Control.dropCached
      let seen := old.describe
      Board.note .debug .space s!"unmapped {v} (was {seen})" : RequestM Unit).run :=
    fun old => ensures_bindE tends_dropCached fun _ => tends_boardE (emits_note ..)
  have hgrows : Grows s.memory m₁ rs held := by
    rcases unmapPage_spec v hs hroot with ⟨hno, -⟩ | ⟨m₂, hyes, hgrows, -⟩
    · have hsame := hm₁.symm.trans hno
      cases hsame
      exact Grows.refl hs
    · have hsame := hm₁.symm.trans hyes
      cases hsame
      exact hgrows
  cases r₁ with
  | error e =>
    cases hrest
    exact hgrows
  | ok old => exact hgrows.trans ((hrest' old).of_ok hrest hgrows.sound)

/-- The root of a range is one of the two. -/
theorem mem_of_rootFor {start stop : VirtAddr} (hroots : s.roots = some roots)
    (h : s.rootFor start stop = .ok root) : root ∈ [roots.high, roots.low] := by
  unfold rootFor at h
  rw [hroots] at h
  dsimp only at h
  split at h
  · cases h
    simp
  · split at h
    · cases h
    · cases h
      simp
  · cases h

theorem grows_mapNamed {r : Except MapError Nat} (hroots : s.roots = some roots)
    (hmode : s.mode = .resolved) (name : String) (start stop : VirtAddr) (p : PhysAddr) (f : Flags)
    (hs : s.memory.Sound [roots.high, roots.low] held)
    (hrun : (mapNamed name start stop p f).run s = .ok r s') :
    Grows s.memory s'.memory [roots.high, roots.low] held := by
  cases hroot : s.rootFor start stop with
  | error e =>
    cases hrun.symm.trans (run_mapNamed_refused hmode hroot)
    exact Grows.refl hs
  | ok root =>
    rw [run_mapNamed_of_root hmode hroot] at hrun
    exact (tends_mapBelow (mem_of_rootFor hroots hroot) ..).of_ok hrun hs

theorem grows_mapDevice {r : Except MapError Nat} (hroots : s.roots = some roots)
    (hmode : s.mode = .resolved) (p : PhysAddr) (size : Word)
    (hs : s.memory.Sound [roots.high, roots.low] held)
    (hrun : (mapDevice p size).run s = .ok r s') :
    Grows s.memory s'.memory [roots.high, roots.low] held := by
  unfold mapDevice at hrun
  split at hrun
  · cases hrun
    exact Grows.refl hs
  · rw [run_bindE_ok (run_getE s)] at hrun
    exact grows_mapNamed hroots hmode _ _ _ _ _ hs hrun

theorem grows_unmap {r : Except MapError Unit} (hroots : s.roots = some roots)
    (hmode : s.mode = .resolved) (v : VirtAddr)
    (hs : s.memory.Sound [roots.high, roots.low] held) (hrun : (unmap v).run s = .ok r s') :
    Grows s.memory s'.memory [roots.high, roots.low] held := by
  cases hroot : s.rootFor v.floor (v.floor.add pageSize) with
  | error e =>
    cases hrun.symm.trans (run_unmap_refused hmode hroot)
    exact Grows.refl hs
  | ok root =>
    rw [run_unmap_of_root hmode hroot] at hrun
    exact grows_unmapBelow (mem_of_rootFor hroots hroot) v.floor hs hrun

end Space

/-! ## The parts of the move -/

namespace Transition

variable {R : Space → Space → Prop} {c : MemoryConfig} {l : ImageLayout} {roots : Roots}
  {rs held : List PhysAddr} {root : PhysAddr}

/-- From the roots to the switch, the move is made of steps of the mapper below `rs`, and of the
board, which stores nothing. `R` holds of each of them. -/
structure Permits (R : Space → Space → Prop) (rs : List PhysAddr) : Prop where
  board : ∀ {α : Type} {x : BoardM α}, Emits Still x → Ensures R (liftM x : SpaceM α)
  mapRange : ∀ root ∈ rs, ∀ start stop p f,
    Ensures R (Space.onMemory (Tables.mapRange root start stop p f).run)
  ledger : ∀ s ledger, R s { s with ledger := ledger }
  live : ∀ s live, R s { s with live := live }

/-- Up to the switch, the frame store takes part in the move as well: it sets frames aside and
gives the roots. -/
structure Admits (R : Space → Space → Prop) (rs : List PhysAddr) : Prop extends Permits R rs where
  park : ∀ n, Ensures R (Space.onMemory (Memory.park n))
  allocateTable : Ensures R (Space.onMemory Memory.allocateTable)

/-- Sound trees stay sound. -/
theorem admits_tends : Admits (Space.Tends rs held) rs where
  board := Space.tends_board
  park := fun n => ⟨fun hrun hs => by
    obtain ⟨m, hm, rfl⟩ := Space.exists_of_onMemory hrun
    obtain ⟨k, m', hpark, hspares, -⟩ := park_spec n hs.consistent
    cases hm.symm.trans hpark
    exact (grows_spares hs hspares).1⟩
  allocateTable := ⟨fun hrun hs => by
    obtain ⟨m, hm, rfl⟩ := Space.exists_of_onMemory hrun
    rcases newRoot_spec hs with ⟨m', hnone, hgrows, -⟩ | ⟨p, m', hsome, -, hgrows, -⟩
    · cases hm.symm.trans hnone
      exact hgrows
    · cases hm.symm.trans hsome
      exact hgrows⟩
  mapRange := fun _ hroot => Space.tends_mapRange hroot
  ledger := fun _ _ hs => Grows.refl hs
  live := fun _ _ hs => Grows.refl hs

section Steps

variable [Std.Refl R] [IsTrans Space R]

theorem Permits.boardE {α δ : Type} {x : BoardM α} (h : Permits R rs) (hx : Emits Still x) :
    Ensures R (liftM (liftM x : SpaceM α) : ExceptT δ SpaceM α).run :=
  ensures_lift (h.board hx)

theorem Permits.record (h : Permits R rs) (m : Mapping) : Ensures R (Space.record m) := by
  unfold Space.record
  refine ensures_bind ensures_get fun s => ?_
  refine ensures_bind (h.board (Ledger.emits_record ..)) fun r => ⟨fun hrun => ?_⟩
  cases hrun
  exact h.ledger _ _

theorem Permits.mapInto (h : Permits R rs) (hroot : root ∈ rs) (name : String) (start : VirtAddr)
    (r : PhysRange) (f : Flags) : Ensures R (mapInto root name start r f).run := by
  unfold Transition.mapInto
  refine ensures_bindE (ensures_lift (h.mapRange root hroot ..)) fun n => ?_
  cases n with
  | error e => exact ensures_throwE _
  | ok n => exact ensures_lift (h.record _)

theorem Permits.mapTwice (h : Permits R [roots.high, roots.low]) (high : Word) (region : Region) :
    Ensures R (mapTwice roots high region).run := by
  unfold Transition.mapTwice
  refine ensures_bindE (ensures_lift (ensures_check _)) fun r => ?_
  refine ensures_iteE (ensures_pureE _) ?_
  exact ensures_bindE (h.mapInto (by simp) ..) fun _ => h.mapInto (by simp) ..

theorem Permits.mapAllTwice (h : Permits R [roots.high, roots.low]) (high : Word)
    (regions : List Region) : Ensures R (mapAllTwice roots high regions).run := by
  induction regions with
  | nil => exact ensures_pureE _
  | cons region rest ih =>
    unfold Transition.mapAllTwice
    exact ensures_bindE (h.mapTwice ..) fun _ => ih

theorem Permits.mapDual (h : Permits R [roots.high, roots.low]) (c : MemoryConfig)
    (l : ImageLayout) : Ensures R (mapDual c l roots).run := by
  unfold Transition.mapDual
  refine ensures_bindE (h.mapInto (by simp) ..) fun _ => ?_
  refine ensures_bindE (ensures_lift (ensures_check _)) fun regions => ?_
  refine ensures_bindE (h.mapAllTwice ..) fun _ => ensures_bindE (ensures_lift ?_) fun _ => ?_
  · refine ⟨fun hrun => ?_⟩
    cases hrun
    exact h.live _ _
  · exact h.boardE (emits_advance ..)

theorem Permits.checkEntry (h : Permits R rs) (region : Region) (p : PhysAddr) (v : VirtAddr)
    (e : Entry) : Ensures R (checkEntry region p v e).run := by
  unfold Transition.checkEntry
  refine ensures_iteE ?_ (ensures_iteE (ensures_throwE _) (ensures_pureE _))
  exact ensures_bindE (h.boardE (emits_note ..)) fun _ => ensures_refusalE _

theorem Permits.checkPages (h : Permits R rs) (roots : Roots) (high : Word) (region : Region)
    (r : PhysRange) (i n : Nat) : Ensures R (checkPages roots high region r i n).run := by
  induction n generalizing i with
  | zero => exact ensures_pureE _
  | succ n ih =>
    unfold Transition.checkPages
    refine ensures_bindE ensures_getE fun s => ensures_bindE (h.checkEntry ..) fun _ => ?_
    exact ensures_bindE (h.checkEntry ..) fun _ => ih (i + 1)

theorem Permits.checkRegions (h : Permits R rs) (roots : Roots) (high : Word)
    (regions : List Region) : Ensures R (checkRegions roots high regions).run := by
  induction regions with
  | nil => exact ensures_pureE _
  | cons region rest ih =>
    unfold Transition.checkRegions
    refine ensures_bindE (ensures_lift (ensures_check _)) fun r => ?_
    refine ensures_bindE (h.checkPages ..) fun _ => ?_
    exact ensures_bindE ih fun _ => ensures_pureE _

theorem Permits.check (h : Permits R rs) (c : MemoryConfig) (l : ImageLayout) (roots : Roots) :
    Ensures R (check c l roots).run := by
  unfold Transition.check
  dsimp only
  refine ensures_bindE (ensures_lift (ensures_check _)) fun regions => ?_
  refine ensures_bindE (h.checkRegions ..) fun pages => ensures_bindE ensures_getE fun s => ?_
  split
  · exact ensures_throwE _
  · refine ensures_bindE (h.boardE emits_stackPointer) fun sp => ?_
    refine ensures_iteE (ensures_refusalE _) (ensures_bindE ensures_getE fun s => ?_)
    refine ensures_bindE (h.boardE (Ledger.emits_conflictsIn _)) fun conflicts => ?_
    refine ensures_iteE ?_ (h.boardE (emits_note ..))
    exact ensures_bindE (h.boardE (emits_note ..)) fun _ => h.boardE (emits_note ..)

theorem Admits.rootFrame (h : Admits R rs) : Ensures R Transition.rootFrame.run := by
  unfold Transition.rootFrame
  refine ensures_bindE (ensures_lift h.allocateTable) fun p => ?_
  cases p with
  | some p => exact ensures_pureE _
  | none => exact ensures_throwE _

theorem Admits.buildRoots (h : Admits R rs) (c : MemoryConfig) :
    Ensures R (buildRoots c).run := by
  unfold Transition.buildRoots
  refine ensures_bindE (ensures_lift (h.park _)) fun n => ?_
  refine ensures_bindE (h.boardE (emits_note ..)) fun _ => ?_
  refine ensures_bindE h.rootFrame fun low => ensures_bindE h.rootFrame fun high => ?_
  refine ensures_bindE (h.boardE (emits_advance ..)) fun _ => ?_
  exact ensures_bindE (h.boardE (emits_note ..)) fun _ => ensures_pureE _

end Steps

end Transition

end HighHalf
