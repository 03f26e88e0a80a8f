import HighHalf.Proofs.Boot.Verdict
import HighHalf.Proofs.Space.Invalidation

/-!
# What a boot writes

Setting up the frame store writes its bitmap. Building the trees marks frames in the bitmap, zeroes
them and writes entries of tables. After the checks, the slots that the relocation table names are
written, and nothing else. So no byte of the image changes unless it is in such a slot, and a boot
that gives the move up leaves the image as it was loaded.

## Main definitions

* `Tables.Built`: on the way between two states only the bitmap and tables were written
* `Space.Loaded`: where the parts of an image are that is ready for the boot
* `Space.Footprint`: the bytes that a boot has changed
-/

namespace HighHalf

open Event Board

/-! ## What building writes -/

namespace Memory

variable {m m' : Memory} {P : PhysAddr → Prop} {n : Nat}

/-- Providing frames writes the bitmap and the frames that are provided. -/
theorem cell_of_provided (hin : BitmapInside m) (h : Provided P m m')
    (hP : ∀ p, P p → m.board.ram.Has p.num 4096) (hn : m.board.ram.base.num ≤ n)
    (hbitmap : ¬ m.InBitmap n) (hout : ∀ p, P p → ¬ (p.num ≤ n ∧ n < p.num + 4096)) :
    m'.cell n = m.cell n := by
  obtain ⟨ss, hss, hall⟩ := h.stores
  rw [cell, cell, hss.ram]
  refine cell_replay (Ram.SameBank.refl _) fun st hst r hbank => ?_
  exact cell_of_provides hin hP hbank (hall st (by simpa using hst)) hn hbitmap hout

end Memory

namespace Tables

open Memory

variable {m m' m'' : Memory} {rs rs' held : List PhysAddr} {root p : PhysAddr} {n : Nat}
  {Q : Ram → Prop} {b : Board} {k : Nat}

/-- The mapper writes the bitmap and tables. -/
theorem Works.cell_eq (h : Works m m' rs held Q) (hs : Sound m rs held)
    (hn : m.board.ram.base.num ≤ n) (hbitmap : ¬ m.InBitmap n)
    (hout : ∀ t, m'.HasTable rs t → ¬ (t.num ≤ n ∧ n < t.num + 4096)) : m'.cell n = m.cell n := by
  have hc := hs.consistent
  have hplan := h.grows.plan
  obtain ⟨es, hes, hcourse⟩ := h.course
  rw [Memory.cell, Memory.cell, hes.ram]
  refine cell_replay (Ram.SameBank.refl _) fun st hst r hbank => ?_
  obtain ⟨pre, post, rfl⟩ := List.append_of_mem hst
  rcases hcourse.split with hprovides | ⟨t, i, v, -, ht, hi, rfl, -⟩
  · exact cell_of_provides hc.bitmapInside (fun p hp => hc.has hp.1) hbank hprovides hn hbitmap
      fun p hp => hout p hp.2.2
  · obtain ⟨root, hroot, path, hr⟩ := id ht
    have hman := hplan.manages.1 (h.grows.sound.owned root hroot path t hr).managed
    obtain ⟨hnum, hhas⟩ := has_entry hc.shows (hc.has hman) hi
    have hthere := hout t ht
    rw [entryPlace_eq]
    refine Ram.cell_setWord_of_lt (hbank.shows hc.shows) ?_ v (by rwa [hbank.base]) (by omega)
    rw [hnum]
    exact hbank.has.2 hhas

/-- Trees with the roots `rs` were built on the way from `m` to `m'`. The bitmap and tables were
written, and nothing else. -/
structure Built (m m' : Memory) (rs : List PhysAddr) : Prop where
  sound : m'.Sound rs []
  plan : Frames.SamePlan m.frames m'.frames
  bank : Ram.SameBank m.board.ram m'.board.ram
  cells : ∀ n, m.board.ram.base.num ≤ n → ¬ m.InBitmap n →
    (∀ t, m'.HasTable rs t → ¬ (t.num ≤ n ∧ n < t.num + 4096)) → m'.cell n = m.cell n

theorem Built.refl (h : m.Sound rs []) : Built m m rs :=
  ⟨h, Frames.SamePlan.refl _, Ram.SameBank.refl _, fun _ _ _ _ => rfl⟩

/-- The tables of the earlier trees are tables of the later ones, so they may have been
written. -/
theorem Built.trans (h : Built m m' rs) (h' : Built m' m'' rs')
    (htables : ∀ t, m'.HasTable rs t → m''.HasTable rs' t) : Built m m'' rs' where
  sound := h'.sound
  plan := h.plan.trans h'.plan
  bank := h.bank.trans h'.bank
  cells := by
    intro n hn hbitmap hout
    have hplan := h.plan
    have hbitmap' : ¬ m'.InBitmap n := by
      rwa [InBitmap, hplan.bitmap, hplan.bitmapSize]
    rw [h'.cells n (by rwa [h.bank.base]) hbitmap' hout,
      h.cells n hn hbitmap fun t ht => hout t (htables t ht)]

theorem built_of_grows (h : Grows m m' rs [])
    (hcells : ∀ n, m.board.ram.base.num ≤ n → ¬ m.InBitmap n →
      (∀ t, m'.HasTable rs t → ¬ (t.num ≤ n ∧ n < t.num + 4096)) → m'.cell n = m.cell n) :
    Built m m' rs :=
  ⟨h.sound, h.plan, h.bank, hcells⟩

/-- The trees are built on by a step that keeps their tables. -/
theorem Built.grows (h : Built m m' rs) (hgrows : Grows m' m'' rs [])
    (hcells : ∀ n, m'.board.ram.base.num ≤ n → ¬ m'.InBitmap n →
      (∀ t, m''.HasTable rs t → ¬ (t.num ≤ n ∧ n < t.num + 4096)) → m''.cell n = m'.cell n) :
    Built m m'' rs :=
  h.trans (built_of_grows hgrows hcells) fun _ => hgrows.hasTable

theorem Built.within (h : Built m m' rs) : Within m m' where
  plan := h.plan
  bank := h.bank
  rest := by
    intro n hn hbitmap hframe
    refine h.cells n hn hbitmap fun t ht hin => ?_
    obtain ⟨root, hroot, path, hr⟩ := ht
    exact hframe t (h.plan.manages.1 (h.sound.owned root hroot path t hr).managed) hin

theorem Built.board (h : Built m m' rs) (hram : b.ram = m'.board.ram) :
    Built m ⟨b, m'.frames⟩ rs := by
  have hkeeps : Keeps m' ⟨b, m'.frames⟩ := keeps_board hram
  refine h.grows (grows_spares h.sound (hkeeps.spares h.sound.consistent)).1 fun n _ _ _ => ?_
  rw [Memory.cell, Memory.cell, hram]

theorem Built.park (h : Built m m' rs) (hrun : Memory.park n m' = .ok k m'') : Built m m'' rs := by
  have hc := h.sound.consistent
  obtain ⟨_, _, hpark, hspares, -⟩ := park_spec n hc
  cases hrun.symm.trans hpark
  refine h.grows (grows_spares h.sound hspares).1 fun k hk hbitmap _ => ?_
  exact cell_of_provided (P := fun _ => False) hc.bitmapInside ((provided_park n).of_ok hrun) nofun
    hk hbitmap nofun

theorem Built.mapRange {r : Except MapError Nat} {start stop : VirtAddr} {f : Flags}
    (h : Built m m' rs) (hroot : root ∈ rs)
    (hrun : (Tables.mapRange root start stop p f).run m' = .ok r m'') : Built m m'' rs := by
  have hworks : Works m' m'' rs [] _ := works_mapRange h.sound hroot (congrArg leftBy hrun)
  exact h.grows hworks.grows fun n hn hbitmap hout => hworks.cell_eq h.sound hn hbitmap hout

theorem Built.missed (h : Built m m' rs) (hrun : allocateTable m' = .ok none m'') :
    Built m m'' rs := by
  have hc := h.sound.consistent
  rcases newRoot_spec h.sound with ⟨_, hnone, hgrows, -⟩ | ⟨p, _, hsome, -⟩
  · cases hrun.symm.trans hnone
    refine h.grows hgrows fun n hn hbitmap _ => ?_
    exact cell_of_provided (P := fun _ => False) hc.bitmapInside
      (provided_allocateTable hrun nofun) nofun hn hbitmap nofun
  · cases hrun.symm.trans hsome

/-- A root is a table from the moment it is handed out. -/
theorem Built.newRoot (h : Built m m' rs) (hrun : allocateTable m' = .ok (some p) m'') :
    Built m m'' (p :: rs) := by
  have hc := h.sound.consistent
  rcases newRoot_spec h.sound with ⟨_, hnone, -⟩ | ⟨p', _, hsome, hsound, hgrows, -⟩
  · cases hrun.symm.trans hnone
  cases hrun.symm.trans hsome
  have hroot : m''.HasTable (p :: rs) p := ⟨p, List.mem_cons_self, [], Reaches.root⟩
  have hprovided := provided_allocateTable (P := fun q => q = p) hrun
    fun q hq => (Option.some.inj hq).symm
  have hman := hgrows.plan.manages.1 (hsound.owned p List.mem_cons_self [] p Reaches.root).managed
  refine h.trans ⟨hsound, hgrows.plan, hgrows.bank, fun n hn hbitmap hout => ?_⟩ fun t ht => ?_
  · refine cell_of_provided hc.bitmapInside hprovided ?_ hn hbitmap ?_
    · rintro q rfl
      exact hc.has hman
    · rintro q rfl
      exact hout q hroot
  · obtain ⟨root, hmem, path, hr⟩ := hgrows.hasTable ht
    exact ⟨root, List.mem_cons_of_mem p hmem, path, hr⟩

end Tables

/-! ## What the move writes up to the switch -/

/-- What was built from `m` is built on, below the same roots. -/
def Space.BuildsOn (m : Memory) (rs : List PhysAddr) (s s' : Space) : Prop :=
  Tables.Built m s.memory rs → Tables.Built m s'.memory rs

/-- What was built from `m` is built on, perhaps below more roots. -/
def Space.BuildsMore (m : Memory) (s s' : Space) : Prop :=
  (∃ rs, Tables.Built m s.memory rs) → ∃ rs, Tables.Built m s'.memory rs

section Instances

variable {m : Memory} {rs : List PhysAddr}

instance : Std.Refl (Space.BuildsOn m rs) := ⟨fun _ h => h⟩

instance : IsTrans Space (Space.BuildsOn m rs) := ⟨fun _ _ _ h h' hb => h' (h hb)⟩

instance : Std.Refl (Space.BuildsMore m) := ⟨fun _ h => h⟩

instance : IsTrans Space (Space.BuildsMore m) := ⟨fun _ _ _ h h' hb => h' (h hb)⟩

end Instances

namespace Transition

open Memory Tables

variable {c : MemoryConfig} {l : ImageLayout} {roots : Roots} {s s' : Space} {m : Memory}
  {rs : List PhysAddr} {a : Abort} {p : PhysAddr}

theorem permits_buildsOn : Permits (Space.BuildsOn m rs) rs where
  board := fun hx => ⟨fun hrun hb => by
    obtain ⟨b, hb', rfl⟩ := Space.exists_of_board hrun
    exact hb.board (hx.ram_eq (fun s h => h s rfl) hb')⟩
  mapRange := fun root hroot start stop p f => ⟨fun hrun hb => by
    obtain ⟨m, hm, rfl⟩ := Space.exists_of_onMemory hrun
    exact hb.mapRange hroot hm⟩
  ledger := fun _ _ h => h
  live := fun _ _ h => h

theorem buildsOn_park (n : Nat) :
    Ensures (Space.BuildsOn m rs) (Space.onMemory (Memory.park n)) := by
  refine ⟨fun hrun hb => ?_⟩
  obtain ⟨m, hm, rfl⟩ := Space.exists_of_onMemory hrun
  exact hb.park hm

/-- Until the roots are there, nothing is mapped. -/
theorem admits_buildsMore : Admits (Space.BuildsMore m) [] where
  board := fun hx => ⟨fun hrun ⟨rs, hb⟩ => ⟨rs, (permits_buildsOn.board hx).of_ok hrun hb⟩⟩
  mapRange := nofun
  ledger := fun _ _ h => h
  live := fun _ _ h => h
  park := fun n => ⟨fun hrun ⟨rs, hb⟩ => ⟨rs, (buildsOn_park n).of_ok hrun hb⟩⟩
  allocateTable := ⟨fun {s o s'} hrun ⟨rs, hb⟩ => by
    obtain ⟨m, hm, rfl⟩ := Space.exists_of_onMemory hrun
    cases o with
    | none => exact ⟨rs, hb.missed hm⟩
    | some p => exact ⟨p :: rs, hb.newRoot hm⟩⟩

theorem built_of_rootFrame (h : Built m s.memory rs)
    (hrun : rootFrame.run s = .ok (.ok p) s') : Built m s'.memory (p :: rs) := by
  unfold rootFrame at hrun
  obtain ⟨o, s₁, hframe, hrest⟩ := exists_of_run_bindE hrun
  obtain ⟨m', hm', rfl⟩ := Space.exists_of_onMemory (exists_of_lift hframe)
  cases o with
  | none => cases hrest
  | some p =>
    cases hrest
    exact h.newRoot hm'

/-- Making the roots writes the bitmap and the roots. -/
theorem built_of_buildRoots (h : s.memory.Sound [] [])
    (hrun : (buildRoots c).run s = .ok (.ok roots) s') :
    Built s.memory s'.memory [roots.high, roots.low] := by
  obtain ⟨n, s₁, s₂, s₃, s₄, s₅, _, _, hpark, hnote, hlow, hhigh, hadvance, hlog⟩ :=
    stages_of_buildRoots hrun
  have h₁ := (buildsOn_park c.tableReserve).of_ok hpark (Built.refl h)
  have h₂ := (permits_buildsOn.board (emits_note ..)).of_ok hnote h₁
  have h₄ := built_of_rootFrame (built_of_rootFrame h₂ hlow) hhigh
  have h₅ := (permits_buildsOn.board (emits_advance ..)).of_ok hadvance h₄
  exact (permits_buildsOn.board (emits_note ..)).of_ok hlog h₅

/-- A move that is given up has written the bitmap and tables. -/
theorem GivenUp.wrote (hs : s.memory.Sound [] []) (h : GivenUp c l s a s') :
    ∃ rs, Built s.memory s'.memory rs := by
  cases h with
  | width hwidth habort hsame =>
    rw [hsame]
    exact ⟨[], Built.refl hs⟩
  | roots hwidth hrun => exact (admits_buildsMore.buildRoots c).of_ok hrun ⟨[], Built.refl hs⟩
  | mapping hwidth roots s₁ hroots hrun =>
    exact ⟨_, (permits_buildsOn.mapDual c l).of_ok hrun (built_of_buildRoots hs hroots)⟩
  | checks hwidth roots s₁ s₂ hroots hdual hrun =>
    have hmapped := (permits_buildsOn.mapDual c l).of_ok hdual (built_of_buildRoots hs hroots)
    exact ⟨_, (permits_buildsOn.check c l roots).of_ok hrun hmapped⟩

/-- Up to the switch, the bitmap and tables are written. -/
theorem built_of_prepare (hs : s.memory.Sound [] [])
    (hrun : (prepare c l).run s = .ok (.ok roots) s') :
    Built s.memory s'.memory [roots.high, roots.low] := by
  obtain ⟨hwidth, s₁, s₂, s₃, hroots, hdual, hcheck, henable⟩ := stages_of_prepare hrun
  have hmapped := (permits_buildsOn.mapDual c l).of_ok hdual (built_of_buildRoots hs hroots)
  have hchecked := (permits_buildsOn.check c l roots).of_ok hcheck hmapped
  obtain ⟨b, es, u, q, rfl, harms, hquiet, hhappens⟩ := exists_of_enable hwidth henable
  exact hchecked.board (harms.ram_eq hquiet hhappens)

end Transition

/-! ## What a boot leaves -/

namespace Space

open Transition Memory Tables Relocations

variable {c : MemoryConfig} {l : ImageLayout} {b b' : Board} {w : Window} {s s₀ : Space}
  {m m₁ : Memory} {mode : Mode} {roots : Roots} {rs : List PhysAddr} {x : Crossing} {n k : Nat}

/-- What image and board have to be: RAM that begins with a page, has physical addresses of 48 bits
and is found through the window before and after the move, data and relocation table apart in the
image, and a processor that moves as far as it is told. -/
structure Loaded (c : MemoryConfig) (l : ImageLayout) (b : Board) (w : Window) : Prop where
  start_aligned : c.memory.start.num % 4096 = 0
  top : c.memory.stop.num ≤ 2 ^ 48
  data_low : l.image.start.num ≤ l.data.start.num
  data_le : l.data.start.num ≤ l.data.stop.num
  data_high : l.data.stop.num ≤ l.image.stop.num
  table_low : l.image.start.num ≤ l.relocations.start.num
  table_high : l.relocations.stop.num ≤ l.image.stop.num
  apart : l.relocations.Disjoint l.data
  shows : b.ram.Shows w
  inside : b.ram.Has c.memory.start.num (c.memory.stop.num - c.memory.start.num)
  mirrored : b.ram.Shows (landing c w b.cpu.behaviour)
  moved : ∀ d, b.cpu.behaviour.moved d = d

/-- Byte `n` lies between the start of RAM and the end of the image's last page. -/
def InImage (c : MemoryConfig) (l : ImageLayout) (n : Nat) : Prop :=
  c.memory.start.num ≤ n ∧ n < (l.image.stop.num + 4095) / 4096 * 4096

/-- Record `j` of the relocation table as it was loaded. -/
def loadedRecord (l : ImageLayout) (b : Board) (w : Window) (j : Nat) : Reloc :=
  (relocations l).record b.ram w j

/-- What a boot that gave `mode` and left `s` has changed on a board that began as `b`. All tables
of the trees are frames that were handed out, since the trees are sound. -/
structure Footprint (c : MemoryConfig) (l : ImageLayout) (b : Board) (w : Window) (mode : Mode)
    (s : Space) : Prop where
  /-- A boot that gave the move up has left the image alone. -/
  bypass : mode = .bypass → ∀ n, InImage c l n → s.memory.cell n = b.ram.cell n
  /-- In the high half, bytes of the image may have changed in the slots that records name. -/
  resolved : mode = .resolved → ∀ n, InImage c l n →
    (∀ j < (relocations l).count, ¬ ((loadedRecord l b w j).slot.num ≤ n ∧
      n < (loadedRecord l b w j).slot.num + 8)) → s.memory.cell n = b.ram.cell n
  /-- The last record for a slot decides what it holds. -/
  slots : mode = .resolved → ∀ j < (relocations l).count,
    (∀ k, j < k → k < (relocations l).count →
      (loadedRecord l b w k).slot ≠ (loadedRecord l b w j).slot) →
    s.memory.board.ram.word (s.memory.frames.window.reach (loadedRecord l b w j).slot) =
      (loadedRecord l b w j).addend ||| highBase
  /-- What else has changed is in the bitmap or in a table of the trees that were built. -/
  rest : ∃ rs, s.memory.Sound rs [] ∧
    (∀ roots, s.roots = some roots → rs = [roots.high, roots.low]) ∧
    ∀ n, b.ram.base.num ≤ n → ¬ InImage c l n → s.memory.cell n ≠ b.ram.cell n →
      s.memory.InBitmap n ∨ ∃ t, s.memory.HasTable rs t ∧ t.num ≤ n ∧ n < t.num + 4096

theorem Loaded.congr (h : Loaded c l b w) (hram : b'.ram = b.ram)
    (hbehaviour : b'.cpu.behaviour = b.cpu.behaviour) : Loaded c l b' w :=
  { h with
    shows := by rw [hram]; exact h.shows
    inside := by rw [hram]; exact h.inside
    mirrored := by rw [hram, hbehaviour]; exact h.mirrored
    moved := by rw [hbehaviour]; exact h.moved }

theorem Footprint.congr (hram : b'.ram = b.ram) (h : Footprint c l b' w mode s) :
    Footprint c l b w mode s := by
  have hrecord : loadedRecord l b' w = loadedRecord l b w := by
    funext j
    rw [loadedRecord, loadedRecord, hram]
  constructor
  case bypass => rw [← hram]; exact h.bypass
  case resolved => rw [← hram, ← hrecord]; exact h.resolved
  case slots => rw [← hrecord]; exact h.slots
  case rest => rw [← hram]; exact h.rest

theorem Loaded.base_le (h : Loaded c l b w) (hk : InImage c l k) : b.ram.base.num ≤ k :=
  Nat.le_trans h.inside.1 hk.1

theorem Loaded.carried (h : Loaded c l b w) : Carried c l b w :=
  ⟨h.shows, h.inside, h.table_low, h.table_high⟩

theorem Loaded.hosted (h : Loaded c l b w) : Hosted c l b w where
  shows := h.shows
  inside := h.inside
  mirrored := h.mirrored
  data_low := h.data_low
  data_le := h.data_le
  data_high := h.data_high

/-! ## Building trees -/

/-- Building has changed the bitmap and tables. -/
theorem changed_of_built (hset : SetUp (asked c l b w n).memory m₁ l.image) (hb : Built m₁ m rs)
    (hk : b.ram.base.num ≤ k) (hne : m.cell k ≠ b.ram.cell k) :
    m.InBitmap k ∨ ∃ t, m.HasTable rs t ∧ t.num ≤ k ∧ k < t.num + 4096 := by
  have hplan := hb.plan
  by_contra hnot
  obtain ⟨hbitmap, htables⟩ := not_or.1 hnot
  have hbitmap₁ : ¬ m₁.InBitmap k := by rwa [InBitmap, ← hplan.bitmap, ← hplan.bitmapSize]
  have hcell : m₁.cell k = b.ram.cell k := hset.cells k hk hbitmap₁
  refine hne (Eq.trans ?_ hcell)
  exact hb.cells k (by rwa [hset.bank.base]) hbitmap₁ fun t ht hin => htables ⟨t, ht, hin⟩

/-- The bitmap begins behind the image, and the tables are behind the bitmap. -/
theorem cell_of_built (hset : SetUp (asked c l b w n).memory m₁ l.image)
    (hfirst : m₁.frames.bitmap.num = (l.image.stop.num + 4095) / 4096 * 4096)
    (hb : Built m₁ m rs) (hk : b.ram.base.num ≤ k) (hin : InImage c l k) :
    m.cell k = b.ram.cell k := by
  have hlast := hin.2
  by_contra hne
  rcases changed_of_built hset hb hk hne with ⟨hbitmap, -⟩ | ⟨t, ⟨root, hroot, path, hr⟩, hlow, -⟩
  · rw [hb.plan.bitmap] at hbitmap
    omega
  · have hman := hb.plan.manages.1 (hb.sound.owned root hroot path t hr).managed
    have habove := hman.low
    have hbelow := hset.consistent.plan.bitmap_high
    omega

/-- A boot that gives the move up writes the bitmap and tables, and nothing of the image. -/
theorem footprint_of_bypass (h : Loaded c l b w)
    (hrun : boot (asked c l b w n) = .ok .bypass s) : Footprint c l b w .bypass s := by
  obtain ⟨m₁, s₁, s₂, hsetup, rfl, hcases⟩ := boot_cases rfl hrun
  rcases hcases with ⟨_, -, -, hmode⟩ | ⟨a, hmove, henter, -⟩
  · cases hmode
  have hblank : Blank (asked c l b w n).memory :=
    ⟨rfl, rfl, rfl, h.start_aligned, h.shows, h.inside⟩
  have hset := setup_spec hblank hsetup
  have hfirst := bitmap_of_setup hblank hsetup
  have hsound := sound_of_setup hset (le_of_setup hsetup) h.top
  obtain ⟨rs, hwrote⟩ := (givenUp_of_run hset.consistent hmove).wrote hsound
  obtain ⟨b₁, phase, rfl, hram, -⟩ := exists_of_enterBypass henter
  have hbuilt : Built m₁ ⟨b₁, s₁.memory.frames⟩ rs := hwrote.board hram
  constructor
  case bypass => exact fun _ k hk => cell_of_built hset hfirst hbuilt (h.base_le hk) hk
  case resolved => nofun
  case slots => nofun
  case rest =>
    exact ⟨rs, hbuilt.sound, nofun, fun k hk _ hne => changed_of_built hset hbuilt hk hne⟩

/-! ## Moving the pointers -/

/-- After the checks, only the records are applied. -/
theorem ram_of_crossed (hc : Crossed c l b w roots m s x) :
    s.memory.board.ram = Event.replay m.board.ram (rewritten c l m) := by
  have hkeep : ∀ {q : List Event} {r : Ram}, (∀ e ∈ q, e.Still) → Event.replay r q = r :=
    fun h => Event.replay_of_unstored fun s hs => h _ hs s rfl
  have hquiet := hc.quiet
  simp only [List.forall_mem_append] at hquiet
  obtain ⟨⟨⟨⟨h₁, h₂⟩, h₃⟩, h₄⟩, h₅⟩ := hquiet
  have hbefore : ∀ e ∈ x.arming ++ .write .sctlr x.control :: (x.enabled ++
      .relocate highBase :: x.arrived ++ .write .vbar (l.vectors.val ||| highBase) :: x.rehomed),
      e.Still := by
    simp only [List.forall_mem_append, List.forall_mem_cons]
    exact ⟨hc.arms.still, nofun, ⟨fun e he => (h₁ e he).still, nofun,
      fun e he => (h₂ e he).still⟩, nofun, fun e he => (h₃ e he).still⟩
  have hafter : ∀ e ∈ x.followed ++ .write .tcr x.walks :: x.settled, e.Still := by
    simp only [List.forall_mem_append, List.forall_mem_cons]
    exact ⟨fun e he => (h₄ e he).still, nofun, fun e he => (h₅ e he).still⟩
  have hsplit : x.arming ++ .write .sctlr x.control :: x.onward c l m =
      (x.arming ++ .write .sctlr x.control :: (x.enabled ++
        .relocate highBase :: x.arrived ++ .write .vbar (l.vectors.val ||| highBase) ::
          x.rehomed)) ++ (rewritten c l m ++ (x.followed ++ .write .tcr x.walks :: x.settled)) := by
    simp only [Crossing.onward, List.append_assoc, List.cons_append]
  rw [hc.happens.ram, hsplit, Event.replay_append, hkeep hbefore, Event.replay_append,
    hkeep hafter]

/-- The tables of the trees are those that were checked. -/
theorem hasTable_of_crossed (h : Passed c l b w roots m) (hc : Crossed c l b w roots m s x)
    {t : PhysAddr} (ht : m.HasTable [roots.high, roots.low] t) :
    s.memory.HasTable [roots.high, roots.low] t := by
  obtain ⟨root, hroot, path, hr⟩ := ht
  refine ⟨root, hroot, path, (reaches_congr fun path t ht _ i hi => ?_).2 hr⟩
  exact h.entry_eq (sameOutside_of_crossed h hc) (shows_of_crossed h hc) hroot ht hi

/-- Building leaves the records as they were loaded. -/
theorem record_of_built (h : Loaded c l b w) (hset : SetUp (asked c l b w n).memory m₁ l.image)
    (hle : c.memory.start.num ≤ c.memory.stop.num) (hb : Built m₁ m rs)
    (hk : k < (relocations l).count) :
    (relocations l).record m.board.ram m.frames.window k = loadedRecord l b w k := by
  have hsame := sameOutside_of_within hset hb.within
  have hwindow : m.frames.window = w := hb.plan.window.trans hset.window
  have htable := h.carried.table_of_setUp hset hle
  rw [hwindow]
  exact record_congr h.shows (hsame.bank.shows h.shows) htable.stored (htable.keeps hsame) hk

section Moved

variable (hpassed : Passed c l b w roots m) (hc : Crossed c l b w roots m s x)

include hpassed hc

/-- The records are applied from where RAM is found after the move. -/
theorem ram_eq_rewrites (hmoved : b.cpu.behaviour.moved highBase = highBase) :
    s.memory.board.ram = Event.replay m.board.ram ((relocations l).rewrites m.board.ram
      m.frames.window s.memory.frames.window highBase 0 (relocations l).count) := by
  obtain ⟨es, hbuilt, -⟩ := hpassed.built
  rw [ram_of_crossed hc, rewritten, hbuilt.behaviour, hmoved, hc.frames, hpassed.window]

theorem shows_before : m.board.ram.Shows s.memory.frames.window := by
  rw [hc.frames]
  exact hpassed.mirrored

theorem cell_of_crossed (hmoved : b.cpu.behaviour.moved highBase = highBase)
    (hk : m.board.ram.base.num ≤ k) (hout : ∀ j < (relocations l).count,
      ¬ (((relocations l).record m.board.ram m.frames.window j).slot.num ≤ k ∧
        k < ((relocations l).record m.board.ram m.frames.window j).slot.num + 8)) :
    s.memory.cell k = m.cell k := by
  obtain ⟨_, hvalid⟩ := hpassed.checks.relocations
  rw [Memory.cell, Memory.cell, ram_eq_rewrites hpassed hc hmoved]
  refine cell_replay_rewrites (shows_before hpassed hc) hpassed.data
    (accepted_of_validate hvalid).2 (by omega) hk fun j _ hj => ?_
  have hslot := hout j (by omega)
  omega

theorem word_of_crossed (hmoved : b.cpu.behaviour.moved highBase = highBase)
    (hk : k < (relocations l).count) (hlast : ∀ j, k < j → j < (relocations l).count →
      ((relocations l).record m.board.ram m.frames.window j).slot ≠
        ((relocations l).record m.board.ram m.frames.window k).slot) :
    s.memory.board.ram.word (s.memory.frames.window.reach
        ((relocations l).record m.board.ram m.frames.window k).slot) =
      ((relocations l).record m.board.ram m.frames.window k).target ||| highBase := by
  obtain ⟨_, hvalid⟩ := hpassed.checks.relocations
  rw [ram_eq_rewrites hpassed hc hmoved]
  exact word_replay_rewrites (shows_before hpassed hc) hpassed.data
    (accepted_of_validate hvalid).2 (by omega) (Nat.zero_le k) (by omega)
    fun j hj hj' => hlast j hj (by omega)

end Moved

/-- Outside of the image no record names a slot, so what has changed there was changed by
building. -/
theorem changed_of_crossed (h : Loaded c l b w)
    (hset : SetUp (asked c l b w n).memory m₁ l.image) (hb : Built m₁ m [roots.high, roots.low])
    (hpassed : Passed c l b w roots m) (hc : Crossed c l b w roots m s x)
    (hk : b.ram.base.num ≤ k) (hout : ¬ InImage c l k) (hne : s.memory.cell k ≠ b.ram.cell k) :
    s.memory.InBitmap k ∨
      ∃ t, s.memory.HasTable [roots.high, roots.low] t ∧ t.num ≤ k ∧ k < t.num + 4096 := by
  have hdata : ¬ (l.data.start.num ≤ k ∧ k < l.data.stop.num) := by
    have hlow : c.memory.start.num ≤ l.image.start.num := hset.image_low
    have hfirst := h.data_low
    have hlast := h.data_high
    exact fun hin => hout ⟨by omega, by omega⟩
  have hcell := (sameOutside_of_crossed hpassed hc).cells k
    (by rwa [hb.bank.base, hset.bank.base]) hdata
  rcases changed_of_built hset hb hk (fun he => hne (hcell.trans he)) with
    hbitmap | ⟨t, ht, hin⟩
  · refine Or.inl ?_
    rw [InBitmap, hc.frames]
    exact hbitmap
  · exact Or.inr ⟨t, hasTable_of_crossed hpassed hc ht, hin⟩

/-- A boot that ends in the high half has built trees, passed all checks and crossed over. -/
theorem exists_built (h : Loaded c l b w) (hrun : boot (asked c l b w n) = .ok .resolved s) :
    ∃ m₁ roots m x, Memory.setup l.image (asked c l b w n).memory = .ok (.ok ()) m₁ ∧
      Built m₁ m [roots.high, roots.low] ∧ Passed c l b w roots m ∧
      Crossed c l b w roots m s x := by
  obtain ⟨m₁, s₂, roots, d, s₃, q, hsetup, hprepare, hcomplete, hroots, hframes, -, hquiet,
    hlast⟩ := exists_of_boot hrun
  have hset := setup_spec ⟨rfl, rfl, rfl, h.start_aligned, h.shows, h.inside⟩ hsetup
  have hle := le_of_setup hsetup
  obtain ⟨s₁, hpassed, henable, hwidth⟩ :=
    passed_of_prepare h.hosted h.top hsetup hprepare
  obtain ⟨x, hcrossed⟩ :=
    crossed_of_complete hpassed hwidth henable hcomplete hroots hframes hquiet hlast
  -- Turning address resolution on has written nothing.
  have henabled := enabled_of_run hpassed hwidth henable
  have hbuilt := (built_of_prepare (sound_of_setup hset hle h.top) hprepare).board
    (b := s₁.memory.board) henabled.ram.symm
  rw [henabled.frames] at hbuilt
  exact ⟨m₁, roots, s₁.memory, x, hsetup, hbuilt, hpassed, hcrossed⟩

/-- A boot that ends in the high half writes the bitmap, tables and the slots of the records. -/
theorem footprint_of_resolved (h : Loaded c l b w)
    (hrun : boot (asked c l b w n) = .ok .resolved s) : Footprint c l b w .resolved s := by
  obtain ⟨m₁, roots, m, x, hsetup, hbuilt, hpassed, hc⟩ := exists_built h hrun
  have hblank : Blank (asked c l b w n).memory :=
    ⟨rfl, rfl, rfl, h.start_aligned, h.shows, h.inside⟩
  have hset := setup_spec hblank hsetup
  have hfirst := bitmap_of_setup hblank hsetup
  have hrecord := fun k (hk : k < (relocations l).count) =>
    record_of_built h hset (le_of_setup hsetup) hbuilt hk
  constructor
  case bypass => nofun
  case resolved =>
    intro _ k hin hout
    have hk := h.base_le hin
    refine (cell_of_crossed hpassed hc (h.moved _) ?_ fun j hj => ?_).trans
      (cell_of_built hset hfirst hbuilt hk hin)
    · rwa [hbuilt.bank.base, hset.bank.base]
    · rw [hrecord j hj]
      exact hout j hj
  case slots =>
    intro _ k hk hlast
    have hword := word_of_crossed hpassed hc (h.moved _) hk fun j hj hj' => by
      rw [hrecord j hj', hrecord k hk]
      exact hlast j hj hj'
    rw [hrecord k hk] at hword
    exact hword
  case rest =>
    refine ⟨[roots.high, roots.low], sound_of_crossed hpassed hc, fun roots' hroots' => ?_,
      fun k hk hout hne => changed_of_crossed h hset hbuilt hpassed hc hk hout hne⟩
    cases hc.kept.symm.trans hroots'
    rfl

/-- The first boot changes no byte of the image but the slots that the relocation table names, and
those only if it ends in the high half. Everywhere else it changes the bitmap and the tables of
the trees. -/
theorem boot_footprint (h : Loaded c l b w) (hbefore : Later (fresh c l b w) s₀)
    (hmode : s₀.mode = .unsettled) (hboot : boot s₀ = .ok mode s) :
    Footprint c l b w mode s := by
  obtain ⟨b', n, rfl, hreads⟩ := hbefore.unbooted hmode
  have hloaded := h.congr hreads.ram hreads.behaviour
  refine Footprint.congr hreads.ram ?_
  obtain ⟨m, s₁, s₂, -, -, ⟨_, -, -, rfl⟩ | ⟨_, -, -, rfl⟩⟩ := boot_cases rfl hboot
  · exact footprint_of_resolved hloaded hboot
  · exact footprint_of_bypass hloaded hboot

theorem loaded_sample : Loaded sampleConfig SampleBoard.layout sampleBoard .identity where
  start_aligned := by decide
  top := by decide
  data_low := by decide
  data_le := by decide
  data_high := by decide
  table_low := by decide
  table_high := by decide
  apart := PhysRange.disjoint_of_le (by decide)
  shows := hosted_sample.shows
  inside := hosted_sample.inside
  mirrored := hosted_sample.mirrored
  moved := fun _ => rfl

/-- On the sample board both pointers are moved, and below them nothing changes. -/
theorem boot_footprint_sample :
    ∃ s, boot (fresh sampleConfig SampleBoard.layout sampleBoard .identity) = .ok .resolved s ∧
      s.memory.board.ram.word (s.memory.frames.window.reach ⟨0x4000A000⟩) = 0xFFFF800040000840 ∧
      s.memory.board.ram.word (s.memory.frames.window.reach ⟨0x4000A008⟩) = 0xFFFF800040008100 ∧
      ∀ n, 0x40000000 ≤ n → n < 0x4000A000 → s.memory.cell n = sampleBoard.ram.cell n := by
  obtain ⟨s, hboot⟩ := boot_resolves_sample
  have hfootprint := boot_footprint loaded_sample Later.refl rfl hboot
  have hcount : (relocations SampleBoard.layout).count = 2 := by decide
  obtain ⟨hfirst, hsecond⟩ := record_sample
  have hword := hfootprint.slots rfl 0 (by decide) fun k hk hk' => by
    obtain rfl : k = 1 := by omega
    rw [loadedRecord, loadedRecord, hfirst, hsecond]
    decide
  have hword' := hfootprint.slots rfl 1 (by decide) fun k hk hk' => by omega
  rw [loadedRecord, hfirst] at hword
  rw [loadedRecord, hsecond] at hword'
  refine ⟨s, hboot, hword, hword', fun n hn hn' => ?_⟩
  refine hfootprint.resolved rfl n ⟨hn, Nat.lt_trans hn' (by decide)⟩ fun j hj hin => ?_
  obtain rfl | rfl : j = 0 ∨ j = 1 := by omega
  · rw [loadedRecord, hfirst] at hin
    exact absurd hn' (Nat.not_lt.2 hin.1)
  · rw [loadedRecord, hsecond] at hin
    have hlow : 0x4000A008 ≤ n := hin.1
    omega

end Space

end HighHalf
