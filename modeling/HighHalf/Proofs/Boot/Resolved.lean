import HighHalf.SampleBoard
import HighHalf.Proofs.Boot.Course
import HighHalf.Proofs.Transition.Success

/-!
# Bringing up the address space

A boot that ends in the high half has set up the frame store, passed all checks and gone through
the switch. After the checks only slots of the relocation table are stored, and those lie in the
data of the image, below every table. So both trees hold at the end what they held when they
were checked: the overlay of the areas of the layout. That does not hang on where the relocation
table itself lies: a run that would write among its records ends there.
-/

namespace HighHalf

open Event Board

namespace Transition

open Memory Tables

variable {c : MemoryConfig} {l : ImageLayout} {roots : Roots} {s s' : Space} {m : Memory}
  {b : Board} {w : Window}

/-- What is known when the switch begins, on a board that began as `b`. -/
structure Passed (c : MemoryConfig) (l : ImageLayout) (b : Board) (w : Window) (roots : Roots)
    (m : Memory) : Prop where
  sound : m.Sound [roots.high, roots.low] []
  checks : Checks c l roots m
  laid : l.Low c → c.memory.stop.num < 2 ^ 47 →
    Laid m roots (areas c l) (ramArea c :: areas c l)
  built : ∃ es, Happens b m.board es ∧ ∀ e ∈ es, Builds e
  window : m.frames.window = w
  hosted : Hosted c l m.board w
  data : m.board.ram.Has l.data.start.num (l.data.stop.num - l.data.start.num)
  bitmap : l.data.stop.num ≤ m.frames.bitmap.num
  above : ∀ t, m.Owned t → l.data.stop.num ≤ t.num

/-- What the events of a switch leave open: how it was armed, the values that two registers came
to, and the quiet events after each step. -/
structure Crossing where
  arming : List Event
  control : Word
  walks : Word
  enabled : List Event
  arrived : List Event
  rehomed : List Event
  followed : List Event
  settled : List Event

/-- The events after the one that turns address resolution on. -/
def Crossing.onward (x : Crossing) (c : MemoryConfig) (l : ImageLayout) (m : Memory) : List Event :=
  x.enabled ++ .relocate highBase :: x.arrived ++
    (.write .vbar (l.vectors.val ||| highBase) :: x.rehomed ++
      (rewritten c l m ++ (x.followed ++ .write .tcr x.walks :: x.settled)))

/-- What happened from the passed checks to the end of a boot in the high half. -/
structure Crossed (c : MemoryConfig) (l : ImageLayout) (b : Board) (w : Window) (roots : Roots)
    (m : Memory) (s : Space) (x : Crossing) : Prop where
  kept : s.roots = some roots
  frames : s.memory.frames = { m.frames with window := landing c w b.cpu.behaviour }
  arms : Arms l roots x.arming
  resolving : x.control &&& Control.resolving = Control.resolving
  quiet : ∀ e ∈ x.enabled ++ x.arrived ++ x.rehomed ++ x.followed ++ x.settled, Quiet e
  walks : b.cpu.behaviour.Faithful →
    x.walks = Control.withWalks (Control.walkControl .bits48 .dual) .highOnly
  happens : Happens m.board s.memory.board
    (x.arming ++ .write .sctlr x.control :: x.onward c l m)

/-! ## What is stored after the checks -/

variable {x : Crossing} {r : Ram} {w' : Window} {root : PhysAddr}

theorem spares_of_still {range : PhysRange} {e : Event} (h : e.Still) : e.Spares w range :=
  fun s hs => absurd hs (h s)

/-- Building has not moved the bank, so it is found where the move will find it. -/
theorem Passed.mirrored (h : Passed c l b w roots m) :
    m.board.ram.Shows (landing c w b.cpu.behaviour) := by
  obtain ⟨es, hbuilt, -⟩ := h.built
  rw [← hbuilt.behaviour]
  exact h.hosted.mirrored

/-- After the checks, nothing is stored but words inside the data. -/
theorem Passed.spares (h : Passed c l b w roots m)
    (hc : Crossed c l b w roots m s x) :
    ∀ e ∈ x.onward c l m, e.Spares (landing c w b.cpu.behaviour) l.data := by
  obtain ⟨es, hbuilt, -⟩ := h.built
  obtain ⟨n, hvalid⟩ := h.checks.relocations
  -- Only the records' slots are stored, and they were accepted.
  have hrewritten : ∀ e ∈ rewritten c l m, e.Spares (landing c w b.cpu.behaviour) l.data := by
    rw [rewritten, h.window, hbuilt.behaviour]
    exact Relocations.spares_rewrites
      (by rw [← h.window]; exact (Relocations.accepted_of_validate hvalid).2) (by omega)
  have hquiet := hc.quiet
  have hspares : ∀ {q : List Event}, (∀ e ∈ q, e.Quiet) →
      ∀ e ∈ q, e.Spares (landing c w b.cpu.behaviour) l.data :=
    fun h e he => spares_of_still (h e he).still
  simp only [List.forall_mem_append] at hquiet
  obtain ⟨⟨⟨⟨h₁, h₂⟩, h₃⟩, h₄⟩, h₅⟩ := hquiet
  have hmove : ∀ d, Event.Spares (landing c w b.cpu.behaviour) l.data (.relocate d) :=
    fun d => spares_of_still fun s h => by cases h
  have hwrite : ∀ g v, Event.Spares (landing c w b.cpu.behaviour) l.data (.write g v) :=
    fun g v => spares_of_still fun s h => by cases h
  simp only [Crossing.onward, List.forall_mem_append, List.forall_mem_cons]
  exact ⟨⟨hspares h₁, hmove _, hspares h₂⟩, ⟨hwrite _ _, hspares h₃⟩, hrewritten, hspares h₄,
    hwrite _ _, hspares h₅⟩

/-- Tables that were checked are the same as long as only the data changes. -/
theorem Passed.entry_eq (h : Passed c l b w roots m)
    (hsame : Ram.SameOutside m.board.ram r l.data) (hw' : r.Shows w')
    (hroot : root ∈ [roots.high, roots.low]) {path : List Nat} {t : PhysAddr}
    (ht : m.Reaches root path t) {i : Nat} (hi : i < 512) :
    Tables.entry r w' t i = m.entry t i := by
  have hsound := h.sound
  have howned := hsound.owned root hroot path t ht
  have hhas := hsound.consistent.has howned.managed
  exact Tables.entry_congr hsound.consistent.shows hw' hsame.bank hhas hi
    (hsame.sameOn hhas.1 (Or.inr (h.above t howned)))

theorem Passed.lookup_eq (h : Passed c l b w roots m)
    (hsame : Ram.SameOutside m.board.ram r l.data) (hw' : r.Shows w')
    (hroot : root ∈ [roots.high, roots.low]) (v : VirtAddr) :
    Tables.lookup r w' root v = m.lookup root v := by
  -- The lookup is one in memory with that RAM and that window.
  obtain ⟨m', hm'⟩ : ∃ m' : Memory,
    m' = ⟨{ m.board with ram := r }, { m.frames with window := w' }⟩ := ⟨_, rfl⟩
  have hentries : ∀ path t, m.Reaches root path t → ∀ i < 512, m'.entry t i = m.entry t i := by
    intro path t ht i hi
    rw [hm']
    exact h.entry_eq hsame hw' hroot ht hi
  have hlookup := lookup_congr hentries v
  rwa [hm'] at hlookup

end Transition

namespace Space

open Transition Memory

variable {c : MemoryConfig} {l : ImageLayout} {s : Space} {b : Board} {w : Window} {n : Nat}
  {m : Memory}

/-- An address space before its boot, which has refused `n` requests for a frame. -/
def asked (c : MemoryConfig) (l : ImageLayout) (b : Board) (w : Window) (n : Nat) : Space :=
  (fresh c l b w).withMemory
    ⟨b, { region := c.memory, window := w, stats := { failed := n } }⟩

/-- A boot that ends in the high half went through both parts of the move. -/
theorem exists_of_boot (hrun : boot (asked c l b w n) = .ok .resolved s) :
    ∃ m₁ s₂ roots d s₃ q, setup l.image (asked c l b w n).memory = .ok (.ok ()) m₁ ∧
      (prepare c l).run ((asked c l b w n).withMemory m₁) = .ok (.ok roots) s₂ ∧
      complete c l s₂ = .ok d s₃ ∧ s.roots = some roots ∧ s.memory.frames = s₃.memory.frames ∧
      s.ledger = s₃.ledger ∧ (∀ e ∈ q, Quiet e) ∧
      Happens s₃.memory.board s.memory.board q := by
  obtain ⟨m₁, s₁, s₂, hsetup, rfl, hcases⟩ := boot_cases rfl hrun
  rcases hcases with ⟨arrival, hmove, henter, -⟩ | ⟨a, -, -, hmode⟩
  · cases henter
    obtain ⟨roots, s₃, hprepare, hrest⟩ := exists_of_run_bindE hmove
    obtain ⟨d, s₄, hcomplete, hdone⟩ := exists_of_run_bindE hrest
    cases hdone
    refine ⟨m₁, s₃, roots, d, s₁, [.follow (.object "space") d], hsetup, hprepare,
      exists_of_lift hcomplete, rfl, rfl, rfl, ?_, ?_⟩
    · rw [List.forall_mem_singleton]
      trivial
    · exact Happens.one rfl rfl rfl rfl
  · cases hmode

/-- A range in which a store was set up does not run backwards. -/
theorem le_of_setup {m₁ : Memory}
    (hsetup : setup l.image (asked c l b w n).memory = .ok (.ok ()) m₁) :
    c.memory.start.num ≤ c.memory.stop.num := by
  obtain ⟨place, hfits⟩ := fits_of_setup rfl hsetup
  exact Nat.le_of_lt (Nat.lt_of_le_of_lt hfits.low hfits.high)

theorem sound_of_setup {m₁ : Memory} (hset : SetUp (asked c l b w n).memory m₁ l.image)
    (hle : c.memory.start.num ≤ c.memory.stop.num) (htop : c.memory.stop.num ≤ 2 ^ 48) :
    m₁.Sound [] [] := by
  have htotal := hset.consistent.plan.total_eq
  have hregion : m₁.frames.region = c.memory := hset.region
  refine Tables.sound_of_setUp hset ?_
  rw [hregion] at htotal ⊢
  omega

/-- Setting up and preparing leave everything ready for the switch. -/
theorem passed_of_prepare {m₁ : Memory} {roots : Roots} (h : Hosted c l b w)
    (htop : c.memory.stop.num ≤ 2 ^ 48)
    (hsetup : setup l.image (asked c l b w n).memory = .ok (.ok ()) m₁)
    (hrun : (prepare c l).run ((asked c l b w n).withMemory m₁) = .ok (.ok roots) s) :
    ∃ s₁, Passed c l b w roots s₁.memory ∧ (enable c l roots).run s₁ = .ok (.ok ()) s ∧
      c.width = .bits48 := by
  have hle := le_of_setup hsetup
  obtain ⟨hstart, hstop⟩ := aligned_of_prepare hrun hle
  have hset := setup_spec ⟨rfl, rfl, rfl, hstart, h.shows, h.inside⟩ hsetup
  have htotal := hset.consistent.plan.total_eq
  have hregion : m₁.frames.region = c.memory := hset.region
  have hsound := sound_of_setup hset hle htop
  obtain ⟨s₁, hprepared, henable⟩ := exists_of_prepare hsound hle hrun
  obtain ⟨es, hes, hbuilds⟩ := (emits_setup l.image).of_ok hsetup
  obtain ⟨es', hes', hbuilds'⟩ := hprepared.built
  -- What setting up did comes before what preparing did.
  have hbuilt : Happens b s₁.memory.board (es ++ es') := hes.trans hes'
  have hhosted := h.congr (hset.bank.trans hprepared.bank) hbuilt.behaviour
  have hdata : s₁.memory.board.ram.Has l.data.start.num (l.data.stop.num - l.data.start.num) := by
    have hlow : c.memory.start.num ≤ l.image.start.num := hset.image_low
    have hhigh := hset.image_high
    have hbitmap := hset.consistent.plan.bitmap_high
    have hmost := hset.consistent.plan.reserved_le
    have hdata := h.data_low
    have hforth := h.data_le
    have hdata' := h.data_high
    rw [hregion] at htotal hbitmap
    exact (hprepared.bank.has.2 (hset.bank.has.2 h.inside)).mono (by omega) (by omega)
  refine ⟨s₁, ⟨hprepared.sound, hprepared.checks, hprepared.laid, ⟨_, hbuilt, ?_⟩,
    hprepared.plan.window.trans hset.window, hhosted, hdata, ?_, ?_⟩, henable, hprepared.width⟩
  · rw [List.forall_mem_append]
    exact ⟨hbuilds, hbuilds'⟩
  · rw [hprepared.plan.bitmap]
    exact Nat.le_trans h.data_high hset.image_high
  · intro t ht
    have hman : m₁.frames.Manages t := hprepared.plan.manages.1 ht.managed
    have hplanned := hset.consistent.plan.bitmap_high
    have himage := hset.image_high
    have hdata' := h.data_high
    have hlow := hman.low
    omega

/-- What is known once address resolution has been turned on, of the memory `m'` that is left. -/
structure Enabled (c : MemoryConfig) (l : ImageLayout) (b : Board) (w : Window) (roots : Roots)
    (m m' : Memory) : Prop where
  frames : m'.frames = m.frames
  ram : m'.board.ram = m.board.ram
  behaviour : m'.board.cpu.behaviour = b.cpu.behaviour
  movable : Movable c l m'
  walks : m'.board.cpu.registers.get .tcr = Control.walkControl .bits48 .dual
  resolving : m'.board.cpu.registers.get .sctlr &&& Control.resolving = Control.resolving
  happens : ∃ es u q, Arms l roots es ∧ (∀ e ∈ q, Quiet e) ∧
    Happens m.board m'.board (es ++ .write .sctlr (u ||| Control.resolving) :: q)

theorem enabled_of_run {roots : Roots} {s₁ s₂ : Space} (h : Passed c l b w roots s₁.memory)
    (hwidth : c.width = .bits48) (hrun : (enable c l roots).run s₁ = .ok (.ok ()) s₂) :
    Enabled c l b w roots s₁.memory s₂.memory := by
  obtain ⟨b₂, arm, u, q, hs₂, harms, hquiet, hbefore⟩ := exists_of_enable hwidth hrun
  rw [hs₂, Space.memory_withMemory]
  have hram := harms.ram_eq hquiet hbefore
  obtain ⟨n, hvalid⟩ := h.checks.relocations
  obtain ⟨es, hbuilt, -⟩ := h.built
  have hregisters : b₂.cpu.registers = (armed l roots s₁.memory.board.cpu.registers).set .sctlr
      (u ||| Control.resolving) := by
    rw [hbefore.registers, registers_append, registers_write, harms.registers,
      registers_of_quiet hquiet]
  have hmovable : Movable c l s₁.memory := by
    refine ⟨?_, h.data, (Relocations.accepted_of_validate hvalid).2⟩
    rw [h.window]
    exact h.hosted
  refine ⟨rfl, hram, hbefore.behaviour.trans hbuilt.behaviour,
    hmovable.congr rfl hram hbefore.behaviour, ?_, ?_, arm, u, q, harms, hquiet, hbefore⟩
  · rw [hregisters]
    rfl
  · rw [hregisters, PerRegister.get_set_self]
    exact Word.or_and_self u _

/-- Once the first part of the move has been made, the boot ends in the high half, if the
relocation table is apart from the data. -/
theorem boot_of_prepare {m₁ : Memory} {roots : Roots} {s₂ : Space} (h : Hosted c l b w)
    (htable : (relocations l).Apart b.ram l.data) (htop : c.memory.stop.num ≤ 2 ^ 48)
    (hfaithful : b.cpu.behaviour.Faithful)
    (hsetup : setup l.image (asked c l b w n).memory = .ok (.ok ()) m₁)
    (hprepare : (prepare c l).run ((asked c l b w n).withMemory m₁) = .ok (.ok roots) s₂) :
    ∃ s, boot (asked c l b w n) = .ok .resolved s := by
  obtain ⟨s₁, hpassed, henable, hwidth⟩ := passed_of_prepare h htop hsetup hprepare
  have henabled := enabled_of_run hpassed hwidth henable
  have htable' : (relocations l).Apart s₂.memory.board.ram l.data := by
    obtain ⟨es, hbuilt, -⟩ := hpassed.built
    rw [henabled.ram, hbuilt.ram]
    exact htable.congr (Event.sameBank_replay ..)
  obtain ⟨d, s₃, hcomplete⟩ := run_complete (by rw [henabled.behaviour]; exact hfaithful)
    henabled.resolving henabled.movable htable' (MemoryConfig.highBase_of_width hwidth)
  have hmove : (Transition.run c l).run ((asked c l b w n).withMemory m₁) =
      .ok (.ok ⟨roots, d⟩) s₃ :=
    (run_bindE_ok hprepare).trans ((run_bindE_ok (run_lift hcomplete)).trans rfl)
  obtain ⟨s₄, hdone⟩ : ∃ s₄, enterHighHalf ⟨roots, d⟩ s₃ = .ok () s₄ := ⟨_, rfl⟩
  exact ⟨_, run_boot_resolved rfl hsetup hmove hdone⟩

/-- Frames that lie behind the bitmap can be had. -/
theorem supply_of_room {m₁ : Memory} {place : PhysRange} {k : Nat}
    (hset : SetUp (asked c l b w n).memory m₁ l.image)
    (hfits : Memory.Fits (asked c l b w n).memory l.image place)
    (hstart : c.memory.start.num % 4096 = 0) (hstop : c.memory.stop.num % 4096 = 0)
    (hroom : place.stop.num + 4096 * k ≤ c.memory.stop.num) : k ≤ m₁.supply := by
  have hall := hset.supply hfits
  have htotal := hset.consistent.plan.total_eq
  have hregion : m₁.frames.region = c.memory := hset.region
  rw [hregion] at hall htotal
  omega

/-! ## What the checks see -/

/-- Setting up the store and preparing the move change no byte of the image, and none outside of
RAM. -/
theorem sameOutside_of_within {m' : Memory} (hset : SetUp (asked c l b w n).memory m l.image)
    (hwithin : Within m m') :
    Ram.SameOutside b.ram m'.board.ram ⟨m.frames.bitmap, m.frames.region.stop⟩ where
  bank := hset.bank.trans hwithin.bank
  cells := by
    intro n hn hout
    have htotal := hset.consistent.plan.total_eq
    have hfirst := hset.consistent.plan.bitmap_low
    have hbitmap := hset.consistent.plan.bitmap_high
    have hreserved := hset.consistent.plan.reserved_le
    have hbelow : ¬ (m.frames.bitmap.num ≤ n ∧ n < m.frames.region.stop.num) := hout
    have hunmarked : ¬ m.InBitmap n := by
      rintro ⟨hlow, hhigh⟩
      omega
    have hcell : m.cell n = b.ram.cell n := hset.cells n hn hunmarked
    have hrest := hwithin.rest n (by rw [hset.bank.base]; exact hn) hunmarked fun p hp hin => by
      have hlow := hp.low
      have hhigh := hp.high
      omega
    exact hrest.trans hcell

/-- An image behind which the bitmap has found room ends in RAM. -/
theorem image_le_of_setUp (hset : SetUp (asked c l b w n).memory m l.image)
    (hle : c.memory.start.num ≤ c.memory.stop.num) : l.image.stop.num ≤ c.memory.stop.num := by
  have hregion : m.frames.region = c.memory := hset.region
  have htotal := hset.consistent.plan.total_eq
  have hbitmap := hset.consistent.plan.bitmap_high
  have hreserved := hset.consistent.plan.reserved_le
  have hhigh := hset.image_high
  rw [hregion] at htotal hbitmap
  omega

/-- The image is in RAM with its relocation table. -/
structure Carried (c : MemoryConfig) (l : ImageLayout) (b : Board) (w : Window) : Prop where
  shows : b.ram.Shows w
  inside : b.ram.Has c.memory.start.num (c.memory.stop.num - c.memory.start.num)
  table_low : l.image.start.num ≤ l.relocations.start.num
  table_high : l.relocations.stop.num ≤ l.image.stop.num

/-- The table is apart from any range that its bytes are not in. -/
theorem Carried.table (h : Carried c l b w) (hlow : c.memory.start.num ≤ l.image.start.num)
    (hhigh : l.image.stop.num ≤ c.memory.stop.num) {range : PhysRange}
    (hout : ∀ n, l.relocations.start.num ≤ n → n < l.relocations.stop.num →
      ¬ (range.start.num ≤ n ∧ n < range.stop.num)) :
    (relocations l).Apart b.ram range := by
  have hfirst := h.table_low
  have hlast := h.table_high
  refine Relocations.apart_of_table fun n hn hn' => ?_
  have hn₁ : l.relocations.start.num ≤ n := hn
  have hn₂ : n < l.relocations.stop.num := hn'
  exact ⟨h.inside.mono (by omega) (by omega), hout n hn₁ hn₂⟩

/-- The table is apart from all that setting up and preparing write. -/
theorem Carried.table_of_setUp (h : Carried c l b w)
    (hset : SetUp (asked c l b w n).memory m l.image)
    (hle : c.memory.start.num ≤ c.memory.stop.num) :
    (relocations l).Apart b.ram ⟨m.frames.bitmap, m.frames.region.stop⟩ := by
  refine h.table hset.image_low (image_le_of_setUp hset hle) fun n _ hn hin => ?_
  have hlow : m.frames.bitmap.num ≤ n := hin.1
  have hbitmap := hset.image_high
  have hlast := h.table_high
  omega

/-- The checks object to what is wrong with the untouched image, and to nothing else. -/
theorem Carried.objection_eq {m' : Memory} (h : Carried c l b w)
    (hset : SetUp (asked c l b w n).memory m l.image)
    (hle : c.memory.start.num ≤ c.memory.stop.num) (hwithin : Within m m') (sp : Word) :
    objection l m'.board.ram m'.frames.window sp = objection l b.ram w sp := by
  have hsame := sameOutside_of_within hset hwithin
  have hwindow : m'.frames.window = w := hwithin.plan.window.trans hset.window
  rw [objection, objection, hwindow, Relocations.validate_congr h.shows
    (hsame.bank.shows h.shows) (h.table_of_setUp hset hle) hsame]

/-- What makes a boot succeed while there are frames: whole pages of RAM below the alias limit,
regions that both halves have room for, code apart from the rest, a relocation table that is
accepted and apart from the data, a stack in use, and a processor that gives back what it was
given. -/
structure Feasible (c : MemoryConfig) (l : ImageLayout) (b : Board) (w : Window) : Prop where
  width : c.width = .bits48
  whole : c.memory.Whole
  low : l.Low c
  apart : CodeApart (areas c l)
  carried : Carried c l b w
  table_apart : l.relocations.Disjoint l.data
  accepted : ∃ k, (relocations l).validate b.ram w l.data = .ok k
  stack : l.stack.holds b.cpu.behaviour.stackPointer = true
  faithful : b.cpu.behaviour.Faithful

/-- A boot that can be made and finds frames enough ends in the high half. -/
theorem boot_resolves {place : PhysRange} (h : Hosted c l b w) (hfeasible : Feasible c l b w)
    (hfits : Memory.Fits ⟨b, { region := c.memory, window := w }⟩ l.image place)
    (hroom : place.stop.num + 4096 * framesFor c l ≤ c.memory.stop.num) :
    ∃ s, boot (fresh c l b w) = .ok .resolved s := by
  obtain ⟨hstart, hstop, hle, htop⟩ := hfeasible.whole
  obtain ⟨m₁, hsetup, hset⟩ := setUp_of_fits ⟨rfl, rfl, rfl, hstart, h.shows, h.inside⟩ hfits
  have hsound := sound_of_setup (n := 0) hset hle (by omega)
  obtain ⟨es, h₁, -⟩ := (emits_setup l.image).of_ok hsetup
  have hkept : m₁.board.cpu.behaviour = b.cpu.behaviour := h₁.behaviour
  have hregular : Regular c l m₁.board.cpu.behaviour := by
    rw [hkept]
    exact ⟨hfeasible.width, hfeasible.whole, hfeasible.low, hfeasible.apart.agree,
      hfeasible.faithful⟩
  obtain ⟨k, haccepted⟩ := hfeasible.accepted
  obtain ⟨roots, s₂, hprepare⟩ := exists_prepare (c := c) (l := l)
    (s := (fresh c l b w).withMemory m₁) hregular hsound
    (supply_of_room (n := 0) hset hfits hstart hstop hroom) rfl fun m hwithin => by
      rw [Space.memory_withMemory, hkept,
        hfeasible.carried.objection_eq (n := 0) hset hle hwithin, objection, haccepted,
        hfeasible.stack]
      rfl
  have htable := hfeasible.carried.table hset.image_low (image_le_of_setUp (n := 0) hset hle)
    fun n hn hn' => hfeasible.table_apart.apart ⟨hn, hn'⟩
  exact boot_of_prepare (n := 0) h htable (by omega) hfeasible.faithful hsetup hprepare

/-- What happened from the passed checks on, once both parts of the move have been made. -/
theorem crossed_of_complete {roots : Roots} {s₁ s₂ s₃ : Space} {d : Word} {q : List Event}
    (h : Passed c l b w roots s₁.memory) (hwidth : c.width = .bits48)
    (henable : (enable c l roots).run s₁ = .ok (.ok ()) s₂)
    (hcomplete : complete c l s₂ = .ok d s₃) (hroots : s.roots = some roots)
    (hframes : s.memory.frames = s₃.memory.frames) (hquiet₅ : ∀ e ∈ q, Quiet e)
    (hlast : Happens s₃.memory.board s.memory.board q) :
    ∃ x, Crossed c l b w roots s₁.memory s x := by
  have henabled := enabled_of_run h hwidth henable
  obtain ⟨arm, u, q₀, harms, hquiet₀, hbefore⟩ := henabled.happens
  obtain ⟨t, q₁, q₂, q₃, q₄, hquiet, ht, hframes₃, hafter⟩ := exists_of_complete
    henabled.movable (MemoryConfig.highBase_of_width hwidth) hcomplete
  have hsame : rewritten c l s₂.memory = rewritten c l s₁.memory :=
    rewritten_congr henabled.frames henabled.ram hbefore.behaviour
  refine ⟨⟨arm, u ||| Control.resolving, t, q₀, q₁, q₂, q₃, q₄ ++ q⟩, hroots, ?_, harms,
    Word.or_and_self u _, ?_, ?_, ?_⟩
  · rw [hframes, hframes₃, henabled.behaviour, henabled.frames, h.window]
  · simp only [List.forall_mem_append] at hquiet ⊢
    exact ⟨⟨⟨⟨hquiet₀, hquiet.1.1.1⟩, hquiet.1.1.2⟩, hquiet.1.2⟩, hquiet.2, hquiet₅⟩
  · intro hfaithful
    rw [ht (by rwa [henabled.behaviour]), henabled.walks]
  · have hall := hbefore.trans (hafter.trans hlast)
    rw [hsame] at hall
    simpa only [Crossing.onward, List.cons_append, List.append_assoc] using hall

/-- A boot that ends in the high half has passed all checks and has crossed over. -/
theorem crossed_of_asked (h : Hosted c l b w) (htop : c.memory.stop.num ≤ 2 ^ 48)
    (hrun : boot (asked c l b w n) = .ok .resolved s) :
    ∃ roots m x, Passed c l b w roots m ∧ Crossed c l b w roots m s x := by
  obtain
    ⟨m₁, s₂, roots, d, s₃, q, hsetup, hprepare, hcomplete, hroots, hframes, -, hquiet, hlast⟩ :=
    exists_of_boot hrun
  obtain ⟨s₁, hpassed, henable, hwidth⟩ := passed_of_prepare h htop hsetup hprepare
  obtain ⟨x, hcrossed⟩ :=
    crossed_of_complete hpassed hwidth henable hcomplete hroots hframes hquiet hlast
  exact ⟨roots, s₁.memory, x, hpassed, hcrossed⟩

theorem crossed_of_boot (h : Hosted c l b w) (htop : c.memory.stop.num ≤ 2 ^ 48)
    (hrun : boot (fresh c l b w) = .ok .resolved s) :
    ∃ roots m x, Passed c l b w roots m ∧ Crossed c l b w roots m s x :=
  crossed_of_asked (n := 0) h htop hrun

/-! ## The sample board -/

/-- The sample board's memory. -/
def sampleConfig : MemoryConfig where
  memory := .ofWords 0x40000000 0x40200000
  uart := ⟨MemoryConfig.uartBase⟩
  width := .bits48
  tableReserve := 16

/-- The sample board as its loader leaves it. -/
def sampleBoard : Board :=
  .fresh (SampleBoard.ram SampleBoard.pages)
    (SampleBoard.processor none SampleBoard.stackPointer) ⟨MemoryConfig.uartBase, true⟩

/-- RAM of the sample board before anything is loaded. -/
def blankRam : Ram := .zeroed ⟨SampleBoard.ramBase⟩ SampleBoard.pages SampleBoard.ramBase 0

theorem size_blankRam : blankRam.size = 0x200000 := size_zeroBytes _

theorem shows_blankRam : blankRam.Shows .identity :=
  Ram.shows_window (by rw [size_blankRam]; decide)

theorem sameBank_sample : Ram.SameBank blankRam sampleBoard.ram := Ram.sameBank_foldl_setWord ..

/-- What was loaded is found in RAM. -/
theorem word_sample : ∀ e ∈ SampleBoard.image, sampleBoard.ram.word e.1 = e.2 := by
  have hin : SampleBoard.image.all
      (fun e => decide (0x40000000 ≤ e.1.toNat ∧ e.1.toNat + 8 ≤ 0x40200000)) = true := by
    decide
  have hhas : ∀ e ∈ SampleBoard.image, blankRam.Has e.1.toNat 8 := by
    intro e he
    rw [Ram.Has, size_blankRam]
    exact of_decide_eq_true (List.all_eq_true.1 hin e he)
  exact Ram.word_foldl_setWord shows_blankRam hhas (by decide)

theorem hosted_sample : Hosted sampleConfig SampleBoard.layout sampleBoard .identity := by
  have hshows : sampleBoard.ram.Shows .identity := sameBank_sample.shows shows_blankRam
  refine ⟨hshows, sameBank_sample.has.2 ?_, hshows, by decide, by decide, by decide⟩
  rw [Ram.Has, size_blankRam]
  decide

/-- The records of the sample board: two words of the data hold addresses in the image. -/
theorem record_sample :
    (relocations SampleBoard.layout).record sampleBoard.ram .identity 0 =
        .relative ⟨0x4000A000⟩ 0x40000840 ∧
      (relocations SampleBoard.layout).record sampleBoard.ram .identity 1 =
        .relative ⟨0x4000A008⟩ 0x40008100 := by
  simp only [Relocations.record, Reloc.relative, Reloc.mk.injEq]
  exact ⟨⟨word_sample (0x40008000, 0x4000A000) (by decide),
    word_sample (0x40008008, Reloc.relativeKind) (by decide),
    word_sample (0x40008010, 0x40000840) (by decide)⟩,
    word_sample (0x40008018, 0x4000A008) (by decide),
    word_sample (0x40008020, Reloc.relativeKind) (by decide),
    word_sample (0x40008028, 0x40008100) (by decide)⟩

theorem validate_sample : (relocations SampleBoard.layout).validate sampleBoard.ram .identity
    SampleBoard.layout.data = .ok 2 := by
  have hcount : (relocations SampleBoard.layout).count = 2 := by decide
  rw [← hcount]
  refine Relocations.validate_of_accepted (by decide) (by decide) fun j hj => ?_
  obtain rfl | rfl : j = 0 ∨ j = 1 := by omega
  · rw [record_sample.1]
    exact Relocations.fault?_eq_none_iff.1 (by decide)
  · rw [record_sample.2]
    exact Relocations.fault?_eq_none_iff.1 (by decide)

theorem feasible_sample : Feasible sampleConfig SampleBoard.layout sampleBoard .identity where
  width := rfl
  whole := ⟨rfl, rfl, by decide, by decide⟩
  low := ⟨⟨by decide, by decide⟩, ⟨by decide, by decide⟩, ⟨by decide, by decide⟩,
    ⟨by decide, by decide⟩, by decide, by decide, by decide⟩
  apart := by decide
  carried := ⟨hosted_sample.shows, hosted_sample.inside, by decide, by decide⟩
  table_apart := PhysRange.disjoint_of_le (by decide)
  accepted := ⟨2, validate_sample⟩
  stack := by decide
  faithful := fun _ _ _ => rfl

theorem fits_sample :
    Memory.Fits ⟨sampleBoard, { region := sampleConfig.memory, window := .identity }⟩
      SampleBoard.layout.image (.ofWords 0x40010000 0x40011000) :=
  ⟨by decide, by decide, by decide, by decide, by decide⟩

theorem boot_resolves_sample :
    ∃ s, boot (fresh sampleConfig SampleBoard.layout sampleBoard .identity) = .ok .resolved s :=
  boot_resolves hosted_sample feasible_sample fits_sample (by decide)

/-! ## What the trees hold -/

end Space

end HighHalf
