import HighHalf.Proofs.Boot.Bypass

/-!
# What a boot comes to

On a board and with an image that are what they have to be, a boot never stops, and there are
only three reasons for it to give the move up: the frames have run out, the image holds pointers
that cannot be moved, or the stack pointer is outside the boot stack. Which of them it is can be
told from the board before the boot, and where none applies the boot ends in the high half. The
checks of the two halves, of the flag words and of the table bases never refuse such a board.

## Main definitions

* `Space.Placed`: what image and board have to be
* `Space.Verdict`: what a boot comes to, with the reason
-/

namespace HighHalf

open Board Memory

/-- Whole pages inside the image. -/
structure PhysRange.PartOf (image r : PhysRange) : Prop where
  start_aligned : r.start.num % 4096 = 0
  stop_aligned : r.stop.num % 4096 = 0
  le : r.start.num ≤ r.stop.num
  low : image.start.num ≤ r.start.num
  high : r.stop.num ≤ image.stop.num

/-- The parts of the image. -/
def ImageLayout.parts (l : ImageLayout) : List PhysRange := [l.text, l.rodata, l.data, l.stack]

namespace PhysRange

variable {r r' : PhysRange} {n : Nat}

/-- A disjoint part of an image has no page in common with the range, since it is whole pages. -/
theorem Disjoint.apart_of_part {image : PhysRange} (h : r.Disjoint r') (hpart : image.PartOf r')
    (hn : r'.start.num / 4096 * 4096 ≤ n) (hn' : n < (r'.stop.num + 4095) / 4096 * 4096) :
    ¬ (r.start.num ≤ n ∧ n < r.stop.num) := by
  have hstart := hpart.start_aligned
  have hstop := hpart.stop_aligned
  exact fun hin => h.apart hin (by omega)

end PhysRange

namespace Area

variable {a : Area} {r : PhysRange}

theorem executable_iff_of_inside (hruns : a.flags.executable = true)
    (hin : ∀ n, a.start ≤ n → n < a.stop → r.start.num ≤ n ∧ n < r.stop.num) :
    ∀ n, a.covers n = true →
      (a.flags.executable = true ↔ r.start.num ≤ n ∧ n < r.stop.num) := by
  intro n hn
  simp only [Area.covers, Bool.and_eq_true, decide_eq_true_eq] at hn
  exact iff_of_true hruns (hin n hn.1 hn.2)

theorem executable_iff_of_outside (hstill : a.flags.executable = false)
    (hout : ∀ n, a.start ≤ n → n < a.stop → ¬ (r.start.num ≤ n ∧ n < r.stop.num)) :
    ∀ n, a.covers n = true →
      (a.flags.executable = true ↔ r.start.num ≤ n ∧ n < r.stop.num) := by
  intro n hn
  simp only [Area.covers, Bool.and_eq_true, decide_eq_true_eq] at hn
  exact iff_of_false (by rw [hstill]; exact Bool.false_ne_true) (hout n hn.1 hn.2)

end Area

namespace Space

open Transition

variable {c : MemoryConfig} {l : ImageLayout} {s s₀ : Space} {b b' : Board} {w : Window} {n : Nat}
  {m : Memory} {mode : Mode}

/-- What image and board have to be: 48 bits of address and whole pages of RAM that have a high
alias, disjoint parts of the image in whole pages, with vectors and continuation in the code and
the relocation table in the constants, the serial device elsewhere, RAM found through the window
before and after the move, and a processor that gives back what it was given. -/
structure Placed (c : MemoryConfig) (l : ImageLayout) (b : Board) (w : Window) : Prop where
  width : c.width = .bits48
  start_aligned : c.memory.start.num % 4096 = 0
  stop_aligned : c.memory.stop.num % 4096 = 0
  top : c.memory.stop.num < 2 ^ 47
  parts : ∀ r ∈ l.parts, l.image.PartOf r
  disjoint : l.parts.Pairwise PhysRange.Disjoint
  vectors : l.text.contains l.vectors = true
  continuation : l.text.contains l.continuation = true
  table_low : l.rodata.start.num ≤ l.relocations.start.num
  table_le : l.relocations.start.num ≤ l.relocations.stop.num
  table_high : l.relocations.stop.num ≤ l.rodata.stop.num
  uart_outside : l.image.contains c.uart = false
  uart_top : c.uart.num < 2 ^ 47 - 4096
  shows : b.ram.Shows w
  inside : b.ram.Has c.memory.start.num (c.memory.stop.num - c.memory.start.num)
  mirrored : b.ram.Shows (landing c w b.cpu.behaviour)
  faithful : b.cpu.behaviour.Faithful

/-- What a boot comes to on a board that began as `b`, if its frame store was set up as `m`: the
mode that it gives, the state that it leaves, and the reason. Unless the frames run out, the image
as it was loaded and the stack pointer alone decide which of the other three it is. -/
inductive Verdict (c : MemoryConfig) (l : ImageLayout) (b : Board) (w : Window) (m : Memory) :
    Mode → Space → Prop where
  /-- There was no frame for a root or for a table. None is left, neither free nor parked, and
  there were too few. -/
  | starved {s : Space} (a : Abort) (abort : s.abort = some a)
      (cause : a = ⟨.start, .noRootFrame⟩ ∨
        ∃ name, a = ⟨.tablesBuilt, .mapping name .outOfFrames⟩)
      (free : s.memory.frames.free = 0) (waiting : s.memory.frames.waiting = 0)
      (few : m.supply < framesFor c l) : Verdict c l b w m .bypass s
  | relocation {s : Space} (e : RelocError)
      (refused : (relocations l).validate b.ram w l.data = .error e)
      (abort : s.abort = some ⟨.dualMapped, .relocation e⟩) : Verdict c l b w m .bypass s
  | stack {s : Space} (k : Nat) (accepted : (relocations l).validate b.ram w l.data = .ok k)
      (outside : l.stack.holds b.cpu.behaviour.stackPointer = false)
      (abort : s.abort = some ⟨.dualMapped, .stackOutside b.cpu.behaviour.stackPointer⟩) :
      Verdict c l b w m .bypass s
  | resolved {s : Space} (k : Nat) (accepted : (relocations l).validate b.ram w l.data = .ok k)
      (inside : l.stack.holds b.cpu.behaviour.stackPointer = true) :
      Verdict c l b w m .resolved s

/-! ## Parts of the image -/

section Parts

variable (h : Placed c l b w)

include h

theorem Placed.text : l.image.PartOf l.text := h.parts _ (by simp [ImageLayout.parts])

theorem Placed.rodata : l.image.PartOf l.rodata := h.parts _ (by simp [ImageLayout.parts])

theorem Placed.data : l.image.PartOf l.data := h.parts _ (by simp [ImageLayout.parts])

theorem Placed.stack : l.image.PartOf l.stack := h.parts _ (by simp [ImageLayout.parts])

/-- The code is apart from everything else, and the constants from the data. -/
theorem Placed.apart : l.text.Disjoint l.rodata ∧ l.text.Disjoint l.data ∧
    l.text.Disjoint l.stack ∧ l.rodata.Disjoint l.data := by
  have hdisjoint := h.disjoint
  simp only [ImageLayout.parts, List.pairwise_cons, List.forall_mem_cons] at hdisjoint
  obtain ⟨⟨hrodata, hdata, hstack, -⟩, ⟨hother, -⟩, -⟩ := hdisjoint
  exact ⟨hrodata, hdata, hstack, hother⟩

/-- Both halves have room for the regions of an image that ends in RAM. -/
theorem Placed.low (himage : l.image.stop.num ≤ c.memory.stop.num) : l.Low c := by
  have htop := h.top
  have hstop := h.stop_aligned
  have hpart : ∀ r, l.image.PartOf r → r.Low := fun r hr => ⟨hr.le, by have := hr.high; omega⟩
  have hcode : ∀ p, l.text.contains p = true → p.num < 2 ^ 47 - 4096 := by
    intro p hp
    rw [PhysRange.contains_iff] at hp
    have hlast : p.num < l.text.stop.num := hp.2
    have hend := (hpart _ h.text).top
    omega
  exact ⟨hpart _ h.text, hpart _ h.rodata, hpart _ h.data, hpart _ h.stack,
    hcode _ h.vectors, hcode _ h.continuation, h.uart_top⟩

/-- A page of the code lies in the code, which is whole pages. -/
theorem Placed.page_of_code {p : PhysAddr} (hp : l.text.contains p = true)
    (hn : p.num / 4096 * 4096 ≤ n) (hn' : n < p.num / 4096 * 4096 + 4096) :
    l.text.start.num ≤ n ∧ n < l.text.stop.num := by
  have hlow := h.text.start_aligned
  have hhigh := h.text.stop_aligned
  rw [PhysRange.contains_iff] at hp
  have hp' : l.text.start.num ≤ p.num ∧ p.num < l.text.stop.num := hp
  omega

/-- The page of the serial device is apart from the code, since the device is outside the image. -/
theorem Placed.page_of_uart (hn : c.uart.num / 4096 * 4096 ≤ n)
    (hn' : n < c.uart.num / 4096 * 4096 + 4096) :
    ¬ (l.text.start.num ≤ n ∧ n < l.text.stop.num) := by
  have hlow := h.text.start_aligned
  have hhigh := h.text.stop_aligned
  have hfirst := h.text.low
  have hlast := h.text.high
  intro hin
  have himage : l.image.contains c.uart = true := by
    rw [PhysRange.contains_iff]
    show l.image.start.num ≤ c.uart.num ∧ c.uart.num < l.image.stop.num
    omega
  rw [h.uart_outside] at himage
  cases himage

/-- An area lets code run just where the code is. -/
theorem Placed.executable_iff : ∀ a ∈ areas c l, ∀ n, a.covers n = true →
    (a.flags.executable = true ↔ l.text.start.num ≤ n ∧ n < l.text.stop.num) := by
  obtain ⟨hrodata, hdata, hstack, -⟩ := h.apart
  have htext : Flags.text.executable = true := by decide
  have hro : Flags.rodata.executable = false := by decide
  have hrw : Flags.data.executable = false := by decide
  have hdevice : Flags.device.executable = false := by decide
  have hwhole : ∀ n, l.text.start.num / 4096 * 4096 ≤ n →
      n < (l.text.stop.num + 4095) / 4096 * 4096 →
      l.text.start.num ≤ n ∧ n < l.text.stop.num := by
    have hlow := h.text.start_aligned
    have hhigh := h.text.stop_aligned
    intro n hn hn'
    omega
  simp only [areas, List.forall_mem_cons]
  exact ⟨Area.executable_iff_of_inside htext hwhole,
    Area.executable_iff_of_outside hro fun _ => hrodata.apart_of_part h.rodata,
    Area.executable_iff_of_outside hrw fun _ => hdata.apart_of_part h.data,
    Area.executable_iff_of_outside hrw fun _ => hstack.apart_of_part h.stack,
    Area.executable_iff_of_inside htext fun _ => h.page_of_code h.vectors,
    Area.executable_iff_of_inside htext fun _ => h.page_of_code h.continuation,
    Area.executable_iff_of_outside hdevice fun _ => h.page_of_uart, List.forall_mem_nil _⟩

theorem Placed.agree : Agree (areas c l) := fun a ha a' ha' n hn hn' =>
  Bool.eq_iff_iff.2 ((h.executable_iff a ha n hn).trans (h.executable_iff a' ha' n hn').symm)

theorem Placed.regular (himage : l.image.stop.num ≤ c.memory.stop.num)
    (hle : c.memory.start.num ≤ c.memory.stop.num) : Regular c l b.cpu.behaviour :=
  ⟨h.width, ⟨h.start_aligned, h.stop_aligned, hle, h.top⟩, h.low himage, h.agree, h.faithful⟩

theorem Placed.hosted : Hosted c l b w where
  shows := h.shows
  inside := h.inside
  mirrored := h.mirrored
  data_low := h.data.low
  data_le := h.data.le
  data_high := h.data.high

/-- The constants are in the image, and the relocation table is in the constants. -/
theorem Placed.carried : Carried c l b w where
  shows := h.shows
  inside := h.inside
  table_low := Nat.le_trans h.rodata.low h.table_low
  table_high := Nat.le_trans h.table_high h.rodata.high

theorem Placed.table (hlow : c.memory.start.num ≤ l.image.start.num)
    (himage : l.image.stop.num ≤ c.memory.stop.num) : (relocations l).Apart b.ram l.data := by
  have hfirst := h.table_low
  have hlast := h.table_high
  exact h.carried.table hlow himage fun n hn hn' => h.apart.2.2.2.apart ⟨by omega, by omega⟩

theorem Placed.congr (hram : b'.ram = b.ram) (hbehaviour : b'.cpu.behaviour = b.cpu.behaviour) :
    Placed c l b' w :=
  { h with
    shows := by rw [hram]; exact h.shows
    inside := by rw [hram]; exact h.inside
    mirrored := by rw [hram, hbehaviour]; exact h.mirrored
    faithful := by rw [hbehaviour]; exact h.faithful }

end Parts

/-! ## The verdict -/

theorem Verdict.congr {s : Space} (hram : b'.ram = b.ram)
    (hbehaviour : b'.cpu.behaviour = b.cpu.behaviour) (h : Verdict c l b' w m mode s) :
    Verdict c l b w m mode s := by
  cases h with
  | starved a abort cause free waiting few => exact .starved a abort cause free waiting few
  | relocation e refused abort => exact .relocation e (by rwa [← hram]) abort
  | stack k accepted outside abort =>
    rw [hbehaviour] at outside abort
    exact .stack k (by rwa [← hram]) outside abort
  | resolved k accepted inside => exact .resolved k (by rwa [← hram]) (by rwa [← hbehaviour])

/-- If its frame store can be set up, a boot comes to one of these. -/
theorem verdict_of_asked (h : Placed c l b w)
    (hsetup : Memory.setup l.image (asked c l b w n).memory = .ok (.ok ()) m) :
    ∃ mode s, boot (asked c l b w n) = .ok mode s ∧ Verdict c l b w m mode s := by
  have hle := le_of_setup hsetup
  have htop : c.memory.stop.num ≤ 2 ^ 48 := Nat.le_trans (Nat.le_of_lt h.top) (by decide)
  have hset := setup_spec ⟨rfl, rfl, rfl, h.start_aligned, h.shows, h.inside⟩ hsetup
  have himage := image_le_of_setUp hset hle
  obtain ⟨es, hes, -⟩ := (emits_setup l.image).of_ok hsetup
  have hbehaviour : m.board.cpu.behaviour = b.cpu.behaviour := hes.behaviour
  have hregular : Regular c l m.board.cpu.behaviour := by
    rw [hbehaviour]
    exact h.regular himage hle
  rcases prepare_cases (s := (asked c l b w n).withMemory m) hregular
      (sound_of_setup hset hle htop) rfl with
    ⟨a, s₁, hprepare, hstarved, hfew⟩ | ⟨m', hwithin, hdecided⟩
  · obtain ⟨s, hboot, habort, hframes⟩ := boot_of_refused_prepare hset h.faithful hsetup hprepare
    have hnone := hstarved.supply
    rw [supply, ← hframes] at hnone
    exact ⟨.bypass, s, hboot,
      .starved a habort hstarved.cause (by omega) (by omega) hfew⟩
  -- There were frames enough, so the checks decide, and they see the image as it was.
  rw [Space.memory_withMemory, h.carried.objection_eq hset hle hwithin, hbehaviour,
    objection] at hdecided
  cases hvalid : (relocations l).validate b.ram w l.data with
  | error e =>
    rw [hvalid] at hdecided
    obtain ⟨s₁, hprepare⟩ := hdecided
    obtain ⟨s, hboot, habort, -⟩ := boot_of_refused_prepare hset h.faithful hsetup hprepare
    exact ⟨.bypass, s, hboot, .relocation e hvalid habort⟩
  | ok k =>
    rw [hvalid] at hdecided
    cases hstack : l.stack.holds b.cpu.behaviour.stackPointer with
    | false =>
      rw [hstack] at hdecided
      obtain ⟨s₁, hprepare⟩ := hdecided
      obtain ⟨s, hboot, habort, -⟩ := boot_of_refused_prepare hset h.faithful hsetup hprepare
      exact ⟨.bypass, s, hboot, .stack k hvalid hstack habort⟩
    | true =>
      rw [hstack] at hdecided
      obtain ⟨roots, s₂, hprepare⟩ := hdecided
      obtain ⟨s, hboot⟩ := boot_of_prepare h.hosted (h.table hset.image_low himage) htop
        h.faithful hsetup hprepare
      exact ⟨.resolved, s, hboot, .resolved k hvalid hstack⟩

/-- The first boot of a board that is what it has to be comes to one of the four, if its frame
store can be set up: whatever was asked before it, it does not stop. -/
theorem boot_verdict (h : Placed c l b w) (hbefore : Later (fresh c l b w) s₀)
    (hmode : s₀.mode = .unsettled) (hsetup : Memory.setup l.image s₀.memory = .ok (.ok ()) m) :
    ∃ mode s, boot s₀ = .ok mode s ∧ Verdict c l b w m mode s := by
  rcases hbefore.phases with ⟨b', n, rfl, hreads⟩ | ⟨b', n, mode, s₁, -, hboot, hlater⟩
  · obtain ⟨mode, s, hboot, hverdict⟩ :=
      verdict_of_asked (h.congr hreads.ram hreads.behaviour) hsetup
    exact ⟨mode, s, hboot, hverdict.congr hreads.ram hreads.behaviour⟩
  · -- A boot that returned has settled the mode.
    obtain ⟨hrecorded, hne⟩ := recorded_of_boot rfl hboot
    have hsame := (hlater.served (by rw [hrecorded]; exact hne)).mode_eq
    rw [hmode, hrecorded] at hsame
    exact absurd hsame.symm hne

theorem placed_sample : Placed sampleConfig brokenLayout sampleBoard .identity where
  width := rfl
  start_aligned := by decide
  stop_aligned := by decide
  top := by decide
  parts := by
    simp only [ImageLayout.parts, List.forall_mem_cons]
    refine ⟨?_, ?_, ?_, ?_, List.forall_mem_nil _⟩
    all_goals exact ⟨by decide, by decide, by decide, by decide, by decide⟩
  disjoint := by
    simp only [ImageLayout.parts, List.pairwise_cons, List.forall_mem_cons]
    refine ⟨⟨?_, ?_, ?_, List.forall_mem_nil _⟩, ⟨?_, ?_, List.forall_mem_nil _⟩,
      ⟨?_, List.forall_mem_nil _⟩, List.forall_mem_nil _, .nil⟩
    all_goals exact PhysRange.disjoint_of_le (by decide)
  vectors := by decide
  continuation := by decide
  table_low := by decide
  table_le := by decide
  table_high := by decide
  uart_outside := by decide
  uart_top := by decide
  shows := hosted_sample.shows
  inside := hosted_sample.inside
  mirrored := hosted_sample.mirrored
  faithful := feasible_sample.faithful

/-- With that table the sample board keeps its physical addresses, for that table alone. -/
theorem boot_verdict_sample :
    ∃ s, boot (fresh sampleConfig brokenLayout sampleBoard .identity) = .ok .bypass s ∧
      s.abort = some ⟨.dualMapped, .relocation (.malformed 8)⟩ := by
  obtain ⟨m, hsetup, hset⟩ := setUp_of_fits ⟨rfl, rfl, rfl, placed_sample.start_aligned,
    placed_sample.shows, placed_sample.inside⟩ fits_sample
  obtain ⟨mode, s, hboot, hverdict⟩ := boot_verdict placed_sample Later.refl rfl hsetup
  have hmalformed : (relocations brokenLayout).validate sampleBoard.ram .identity
      brokenLayout.data = .error (.malformed 8) := rfl
  cases hverdict with
  | starved a abort cause free waiting few =>
    have hsupply := supply_of_room (n := 0) (k := framesFor sampleConfig brokenLayout) hset
      fits_sample placed_sample.start_aligned placed_sample.stop_aligned (by decide)
    omega
  | relocation e refused abort =>
    rw [hmalformed] at refused
    cases refused
    exact ⟨s, hboot, abort⟩
  | stack k accepted => cases hmalformed.symm.trans accepted
  | resolved k accepted => cases hmalformed.symm.trans accepted

end Space

end HighHalf
