import Mathlib.Order.Interval.Finset.Nat
import HighHalf.Frames.Setup
import HighHalf.Proofs.Frames.Requests

/-!
# Setting up the frame store

After setting up, the bitmap marks the frames from the start of the range to the end of the
bitmap and nothing else, nothing is parked and nobody owns a frame.
-/

namespace HighHalf

namespace Memory

variable {m m' : Memory} {image place : PhysRange} {i j n : Nat}

/-- What marking a run of frames does. -/
structure MarksRun (m m' : Memory) (i n : Nat) : Prop where
  frames : m'.frames = m.frames
  bank : Ram.SameBank m.board.ram m'.board.ram
  cells : ∀ n, m.board.ram.base.num ≤ n → ¬ m.InBitmap n → m'.cell n = m.cell n
  marked : ∀ j, m'.marked j = if i ≤ j ∧ j < i + n then true else m.marked j

theorem marked_of_past (hi : ¬ i / 8 < m.frames.bitmapSize) : m.marked i = true := by
  rw [marked, if_neg hi]

theorem BitmapInside.congr (h : BitmapInside m) (hf : m'.frames = m.frames)
    (hb : Ram.SameBank m.board.ram m'.board.ram) : BitmapInside m' :=
  ⟨by rw [hf]; exact hb.shows h.shows, by rw [hf]; exact hb.has.2 h.has⟩

theorem markRun_spec (h : BitmapInside m) (i n : Nat) :
    ∃ m', markRun i n m = .ok () m' ∧ MarksRun m m' i n := by
  induction n generalizing m i with
  | zero =>
    refine ⟨m, rfl, rfl, Ram.SameBank.refl _, fun _ _ _ => rfl, fun j => ?_⟩
    rw [if_neg (by omega)]
  | succ n ih =>
    obtain ⟨m₁, hrun₁, h₁⟩ := mark_spec h i true
    obtain ⟨m₂, hrun₂, h₂⟩ := ih (h.congr h₁.frames h₁.bank) (i + 1)
    refine ⟨m₂, ?_, h₂.frames.trans h₁.frames, h₁.bank.trans h₂.bank, ?_, ?_⟩
    · rw [markRun, run_bind_ok hrun₁]
      exact hrun₂
    · intro k hk hout
      rw [h₂.cells k (by rw [h₁.bank.base]; exact hk) (by rwa [InBitmap, h₁.frames]),
        h₁.cells k hk hout]
    · intro j
      rw [h₂.marked, h₁.marked]
      -- Frame `i` is marked first, the rest of the run after it.
      by_cases hj : i + 1 ≤ j ∧ j < i + 1 + n
      · rw [if_pos hj, if_pos (by omega)]
      · rw [if_neg hj]
        by_cases hji : j = i
        · rw [if_pos (show i ≤ j ∧ j < i + (n + 1) by omega)]
          by_cases hin : i / 8 < m.frames.bitmapSize
          · rw [if_pos ⟨hji, hin⟩]
          · rw [if_neg (fun c => hin c.2), marked_of_past (by rwa [hji])]
        · rw [if_neg (fun c => hji c.1), if_neg (by omega)]

/-- A store that has not been set up, over a range that begins with a page and lies in RAM. It may
end inside a page. -/
structure Blank (m : Memory) : Prop where
  ready : m.frames.ready = false
  parked : m.frames.parked = #[]
  drawn : m.frames.drawn = 0
  start_aligned : m.frames.region.start.num % 4096 = 0
  shows : m.board.ram.Shows m.frames.window
  inside : m.board.ram.Has m.frames.region.start.num
    (m.frames.region.stop.num - m.frames.region.start.num)

/-- A store that has not been set up, over a range of whole pages that lies in RAM. -/
structure Unset (m : Memory) : Prop where
  ready : m.frames.ready = false
  parked : m.frames.parked = #[]
  drawn : m.frames.drawn = 0
  start_aligned : m.frames.region.start.num % 4096 = 0
  stop_aligned : m.frames.region.stop.num % 4096 = 0
  shows : m.board.ram.Shows m.frames.window
  inside : m.board.ram.Has m.frames.region.start.num
    (m.frames.region.stop.num - m.frames.region.start.num)

theorem Unset.blank (h : Unset m) : Blank m :=
  ⟨h.ready, h.parked, h.drawn, h.start_aligned, h.shows, h.inside⟩

/-- What setting up does. -/
structure SetUp (m m' : Memory) (image : PhysRange) : Prop where
  consistent : Consistent m'
  region : m'.frames.region = m.frames.region
  window : m'.frames.window = m.frames.window
  bank : Ram.SameBank m.board.ram m'.board.ram
  image_low : m.frames.region.start.num ≤ image.start.num
  image_le : image.start.num ≤ image.stop.num
  image_high : image.stop.num ≤ m'.frames.bitmap.num
  reserved : m.frames.region.start.num + 4096 * m'.frames.reserved =
    ((image.stop.num + 4095) / 4096 * 4096 + m'.frames.bitmapSize + 4095) / 4096 * 4096
  parked : m'.frames.parked = #[]
  free : m'.frames.free + m'.frames.reserved = m'.frames.total
  not_owned : ∀ p, ¬ m'.Owned p
  cells : ∀ n, m.board.ram.base.num ≤ n → ¬ m'.InBitmap n → m'.cell n = m.cell n

/-- Frames in the range of an unset store, and bytes of its bitmap. -/
def frameCount (m : Memory) : Nat :=
  (m.frames.region.stop.num - m.frames.region.start.num) / 4096

/-- What setting up asks for: the image begins in the range and does not run backwards, and the
whole pages of the bitmap behind it fit. -/
structure Fits (m : Memory) (image place : PhysRange) : Prop where
  low : m.frames.region.start.num ≤ image.start.num
  high : image.start.num < m.frames.region.stop.num
  le : image.start.num ≤ image.stop.num
  placed : bitmapPlace image.stop ((m.frameCount + 7) / 8) = .ok place
  below : place.stop.num ≤ m.frames.region.stop.num

theorem bitmapPlace_spec {stop : PhysAddr} {bytes : Nat} (hb : bytes < 2 ^ 64)
    (h : bitmapPlace stop bytes = .ok place) :
    place.start.num = (stop.num + 4095) / 4096 * 4096 ∧
      place.stop.num = (place.start.num + bytes + 4095) / 4096 * 4096 := by
  unfold bitmapPlace at h
  cases hs : stop.ceil with
  | error e => rw [hs] at h; cases h
  | ok start =>
    rw [hs] at h
    cases ha : start.add (UInt64.ofNat bytes) with
    | error e =>
      simp only [ha, bind, Except.bind] at h
      cases h
    | ok next =>
      cases hn : next.ceil with
      | error e =>
        simp only [ha, hn, bind, Except.bind] at h
        cases h
      | ok last =>
        simp only [ha, hn, bind, Except.bind, pure, Except.pure, Except.ok.injEq] at h
        subst h
        have h1 := PhysAddr.num_ceil hs
        have h2 := PhysAddr.num_add ha
        have h3 := PhysAddr.num_ceil hn
        rw [UInt64.toNat_ofNat_of_lt' hb] at h2
        exact ⟨h1, by rw [h3, h2]⟩

theorem frameCount_eq (m : Memory) :
    (m.frames.region.size >>> pageShift).toNat = m.frameCount := by
  have h12 : (12 : UInt64).toNat % 64 = 12 := rfl
  rw [UInt64.toNat_shiftRight, Nat.shiftRight_eq_div_pow, PhysRange.size_toNat]
  rfl

/-- The store as it is before its first frames are marked. -/
def placed (m : Memory) (place : PhysRange) : Memory :=
  { m with frames := { m.frames with
      bitmap := place.start, bitmapSize := (m.frameCount + 7) / 8, total := m.frameCount } }

/-- Where everything lies in a store around an image that fits. -/
structure Located (m : Memory) (image place : PhysRange) : Prop where
  last : m.frames.region.start.num + 4096 * m.frameCount ≤ m.frames.region.stop.num
  fits : place.stop.num ≤ m.frames.region.start.num + 4096 * m.frameCount
  start : place.start.num = (image.stop.num + 4095) / 4096 * 4096
  stop : place.stop.num = (place.start.num + (m.frameCount + 7) / 8 + 4095) / 4096 * 4096
  index : m.frames.region.start.num + 4096 * m.frames.indexOf place.stop = place.stop.num

theorem located_of_fits (h : Blank m) (hf : Fits m image place) : Located m image place := by
  have hle := hf.le
  have hlow := hf.low
  have hhigh := hf.high
  have hbelow := hf.below
  have hsa := h.start_aligned
  have hstop := m.frames.region.stop.num_lt
  have hcount : m.frameCount = (m.frames.region.stop.num - m.frames.region.start.num) / 4096 := rfl
  obtain ⟨hstart, hlast⟩ := bitmapPlace_spec (by omega) hf.placed
  have hindex := m.frames.indexOf_eq (p := place.stop) (by omega)
  -- Whole pages of the bitmap lie in whole pages of the range.
  exact ⟨by omega, by omega, hstart, hlast, by omega⟩

/-- The bitmap lies in RAM. -/
theorem Fits.bitmapInside (h : Blank m) (hf : Fits m image place) :
    BitmapInside (m.placed place) := by
  have hle := hf.le
  have hlow := hf.low
  have hbelow := hf.below
  obtain ⟨hcount, hroom, hstart, hlast, -⟩ := located_of_fits h hf
  exact ⟨h.shows, h.inside.mono (show m.frames.region.start.num ≤ place.start.num by omega)
    (show place.start.num + (m.frameCount + 7) / 8 ≤ _ by omega)⟩

/-- The store around an image that fits, with its bitmap cleared. -/
def cleared (m : Memory) (place : PhysRange) : Memory :=
  (m.placed place).stored (.clear (m.frames.window.reach place.start) ((m.frameCount + 7) / 8))

theorem cell_cleared (h : Blank m) (hf : Fits m image place) (hn : m.board.ram.base.num ≤ n) :
    (m.cleared place).cell n = if (m.cleared place).InBitmap n then 0 else m.cell n :=
  Ram.cell_clear h.shows (hf.bitmapInside h).has hn

theorem sameBank_cleared (m : Memory) (place : PhysRange) :
    Ram.SameBank m.board.ram (m.cleared place).board.ram :=
  Ram.sameBank_clear ..

theorem bitmapInside_cleared (h : Blank m) (hf : Fits m image place) :
    BitmapInside (m.cleared place) :=
  (hf.bitmapInside h).congr rfl (sameBank_cleared m place)

/-- Bits past the end of the bitmap count as set, so clearing leaves those marked. -/
theorem marked_cleared (h : Blank m) (hf : Fits m image place) (j : Nat) :
    (m.cleared place).marked j = true ↔ (m.frameCount + 7) / 8 ≤ j / 8 := by
  have hin := bitmapInside_cleared h hf
  have hsize : (m.cleared place).frames.bitmapSize = (m.frameCount + 7) / 8 := rfl
  by_cases hj : j / 8 < (m.cleared place).frames.bitmapSize
  · have hzero : (m.cleared place).bitmapByte (j / 8) = 0 := by
      have hbase := hin.has.1
      rw [(sameBank_cleared m place).base] at hbase
      rw [bitmapByte_eq hin hj, cell_cleared h hf (by omega), if_pos ⟨by omega, by omega⟩]
    rw [marked_eq hj, markIn, hzero]
    simp only [UInt8.toNat_zero, Nat.zero_testBit, Bool.false_eq_true, false_iff]
    omega
  · rw [marked_of_past hj]
    simp only [true_iff]
    omega

/-- The bitmap of `m₃` has been made for `m`: the reserved frames are marked in it, and so are the
bits past the last frame. -/
structure Bitmapped (m m₃ : Memory) (place : PhysRange) : Prop where
  frames : m₃.frames = (m.placed place).frames
  bank : Ram.SameBank m.board.ram m₃.board.ram
  cells : ∀ n, m.board.ram.base.num ≤ n → ¬ m₃.InBitmap n → m₃.cell n = m.cell n
  marked : ∀ j, m₃.marked j = true ↔ j < m.frames.indexOf place.stop ∨ m.frameCount ≤ j

/-- Clearing the bitmap, marking the bits past the last frame and marking the reserved frames. -/
theorem clearAndMark_spec (h : Blank m) (hf : Fits m image place) :
    ∃ m₂ m₃, markRun m.frameCount ((m.frameCount + 7) / 8 * 8 - m.frameCount)
        (m.cleared place) = .ok () m₂ ∧
      markRun 0 (m.frames.indexOf place.stop) m₂ = .ok () m₃ ∧ Bitmapped m m₃ place := by
  have hin₁ := bitmapInside_cleared h hf
  have hbank₁ := sameBank_cleared m place
  obtain ⟨m₂, hrun₂, h₂⟩ := markRun_spec hin₁ m.frameCount
    ((m.frameCount + 7) / 8 * 8 - m.frameCount)
  obtain ⟨m₃, hrun₃, h₃⟩ := markRun_spec (hin₁.congr h₂.frames h₂.bank) 0
    (m.frames.indexOf place.stop)
  have hframes₃ : m₃.frames = (m.cleared place).frames := h₃.frames.trans h₂.frames
  refine ⟨m₂, m₃, hrun₂, hrun₃, ?_⟩
  constructor
  case frames => exact hframes₃
  case bank => exact (hbank₁.trans h₂.bank).trans h₃.bank
  case cells =>
    intro n hn hout
    have hout₁ : ¬ (m.cleared place).InBitmap n := by rwa [InBitmap, ← hframes₃]
    rw [h₃.cells n (by rw [h₂.bank.base, hbank₁.base]; exact hn) (by rwa [InBitmap, h₂.frames]),
      h₂.cells n (by rw [hbank₁.base]; exact hn) hout₁, cell_cleared h hf hn, if_neg hout₁]
  case marked =>
    intro j
    have hj := marked_cleared h hf j
    rw [h₃.marked, h₂.marked]
    -- The reserved frames are marked last, the bits past the last frame before them.
    split
    · simp only [true_iff]
      omega
    · split
      · simp only [true_iff]
        omega
      · rw [hj]
        omega

/-- The store at the end of setting up, with the bitmap as it is in `m₃`. -/
def finished (m m₃ : Memory) (place : PhysRange) : Memory :=
  { m₃ with frames := { (m.placed place).frames with
      image := m.frames.indexOf place.start, reserved := m.frames.indexOf place.stop,
      free := m.frameCount - m.frames.indexOf place.stop, ready := true } }

variable {m₂ m₃ : Memory}

theorem run_setup (h : Blank m) (hf : Fits m image place)
    (hpast : markRun m.frameCount ((m.frameCount + 7) / 8 * 8 - m.frameCount)
      (m.cleared place) = .ok () m₂)
    (hreserve : markRun 0 (m.frames.indexOf place.stop) m₂ = .ok () m₃)
    (hframes : m₃.frames = (m.placed place).frames) :
    ∃ text, setup image m = .ok (.ok ()) ((m.finished m₃ place).noted .info .frames text) := by
  have hcontains : m.frames.region.contains image.start = true :=
    (m.frames.region.contains_iff image.start).2 ⟨hf.low, hf.high⟩
  have hforth : ¬ image.stop.val < image.start.val := by
    rw [UInt64.lt_iff_toNat_lt]
    exact Nat.not_lt.2 hf.le
  have hroom : ¬ m.frames.region.stop.val < place.stop.val := by
    rw [UInt64.lt_iff_toNat_lt]
    exact Nat.not_lt.2 hf.below
  constructor
  rw [setup, run_bind_ok (run_get m)]
  simp only [h.ready, hcontains, hforth, frameCount_eq, hf.placed, Bool.false_eq_true, if_false,
    Bool.not_true, Bool.false_or, decide_false]
  rw [run_bind_ok (run_check place m), if_neg hroom,
    run_bind_ok (show updateFrames _ m = .ok () (m.placed place) from rfl),
    run_bind_ok (run_store _ _), ← cleared, run_bind_ok hpast, run_bind_ok hreserve,
    run_bind_ok (run_updateFrames _ m₃), hframes]
  exact run_bind_ok (run_note ..)

theorem planned_finished (m₃ : Memory) (h : Blank m) (hf : Fits m image place) :
    (m.finished m₃ place).frames.Planned := by
  have hlow := hf.low
  have hle := hf.le
  have hbelow := hf.below
  obtain ⟨hcount, hroom, hstart, hlast, hindex⟩ := located_of_fits h hf
  constructor
  case ready => rfl
  case aligned => exact h.start_aligned
  case total_eq => rfl
  case bitmapSize_eq => rfl
  case bitmap_low =>
    show m.frames.region.start.num ≤ place.start.num
    omega
  case bitmap_high =>
    show place.start.num + (m.frameCount + 7) / 8 ≤
      m.frames.region.start.num + 4096 * m.frames.indexOf place.stop
    omega
  case reserved_le =>
    show m.frames.indexOf place.stop ≤ m.frameCount
    omega

theorem Bitmapped.marked_finished (h : Bitmapped m m₃ place) (j : Nat) :
    (m.finished m₃ place).marked j = true ↔
      j < m.frames.indexOf place.stop ∨ m.frameCount ≤ j := by
  have hsame : (m.finished m₃ place).marked j = m₃.marked j := by
    unfold Memory.marked Memory.bitmapByte Frames.bitmapByte
    rw [h.frames]
    rfl
  rw [hsame]
  exact h.marked j

/-- The frames that are not marked are those between the reserved ones and the end. -/
theorem Bitmapped.card_unmarked (h : Bitmapped m m₃ place) :
    (m.finished m₃ place).unmarked.card = m.frameCount - m.frames.indexOf place.stop := by
  have hset : (m.finished m₃ place).unmarked =
      Finset.Ico (m.frames.indexOf place.stop) m.frameCount := by
    ext j
    rw [mem_unmarked, Finset.mem_Ico, ← Bool.not_eq_true, h.marked_finished]
    show j < m.frameCount ∧ _ ↔ _
    omega
  rw [hset, Nat.card_Ico]

/-- Nothing is parked, so only the bitmap and the counters have to fit together. -/
theorem consistent_finished (h : Blank m) (hf : Fits m image place)
    (hbits : Bitmapped m m₃ place) : Consistent (m.finished m₃ place) := by
  have hcount := (located_of_fits h hf).last
  have hparked : (m.finished m₃ place).frames.parked = #[] := h.parked
  have hdrawn : (m.finished m₃ place).frames.drawn = 0 := h.drawn
  have hpool : (m.finished m₃ place).frames.pool = [] := by
    rw [Frames.pool, hparked, hdrawn]
    rfl
  constructor
  case plan => exact planned_finished m₃ h hf
  case shows => exact hbits.bank.shows h.shows
  case inside =>
    have hinside := hbits.bank.has.2 h.inside
    refine hinside.mono (Nat.le_refl _) ?_
    show m.frames.region.start.num + 4096 * m.frameCount ≤ _
    omega
  case marked_reserved => exact fun i hi => (hbits.marked_finished i).2 (Or.inl hi)
  case marked_past => exact fun i hi => (hbits.marked_finished i).2 (Or.inr hi)
  case free_eq => exact hbits.card_unmarked.symm
  case parked_le =>
    rw [hparked]
    exact Nat.zero_le _
  case drawn_le =>
    rw [hdrawn]
    exact Nat.zero_le _
  case pool_nodup =>
    rw [hpool]
    exact List.nodup_nil
  case pool_managed =>
    rw [hpool]
    exact List.forall_mem_nil _
  case pool_marked =>
    rw [hpool]
    exact List.forall_mem_nil _

/-- A store around an image that fits is set up. -/
theorem setUp_of_fits (h : Blank m) (hf : Fits m image place) :
    ∃ m', setup image m = .ok (.ok ()) m' ∧ SetUp m m' image := by
  obtain ⟨m₂, m₃, hrun₂, hrun₃, hbits⟩ := clearAndMark_spec h hf
  obtain ⟨text, hrun⟩ := run_setup h hf hrun₂ hrun₃ hbits.frames
  obtain ⟨hcount, hroom, hstart, hlast, hindex⟩ := located_of_fits h hf
  have hbelow := hf.below
  have hkeeps := keeps_noted (m.finished m₃ place) .info .frames text
  refine ⟨_, hrun, ?_⟩
  constructor
  case consistent => exact hkeeps.consistent (consistent_finished h hf hbits)
  case region => rfl
  case window => rfl
  case bank => exact hbits.bank
  case image_low => exact hf.low
  case image_le => exact hf.le
  case image_high =>
    show image.stop.num ≤ place.start.num
    omega
  case reserved =>
    show m.frames.region.start.num + 4096 * m.frames.indexOf place.stop =
      ((image.stop.num + 4095) / 4096 * 4096 + (m.frameCount + 7) / 8 + 4095) / 4096 * 4096
    rw [hindex, hlast, hstart]
  case parked => exact h.parked
  case free =>
    show m.frameCount - m.frames.indexOf place.stop + m.frames.indexOf place.stop = m.frameCount
    omega
  case not_owned =>
    rintro p ⟨hman, hmark, -⟩
    -- Only reserved frames are marked, and those are never handed out.
    obtain ⟨hlo, hhi, -⟩ := Frames.Manages.index (planned_finished m₃ h hf) hman
    rcases (hbits.marked_finished _).1 hmark with hreserved | hpast
    · exact absurd hlo (Nat.not_le.2 hreserved)
    · exact absurd hhi (Nat.not_lt.2 hpast)
  case cells =>
    intro n hn hout
    rw [hkeeps.cell]
    refine hbits.cells n hn fun hin => hout ?_
    rw [InBitmap, hbits.frames] at hin
    exact hin

/-- A set-up that succeeds was asked for an image that fits. -/
theorem fits_of_setup (h : m.frames.ready = false) (hok : setup image m = .ok (.ok ()) m') :
    ∃ place, Fits m image place := by
  rw [setup, run_bind_ok (run_get m)] at hok
  simp only [h, Bool.false_eq_true, if_false, frameCount_eq] at hok
  split at hok
  · cases hok
  · rename_i hguard
    simp only [Bool.or_eq_true, Bool.not_eq_true', decide_eq_true_eq, not_or, Bool.not_eq_false,
      PhysRange.contains_iff, UInt64.lt_iff_toNat_lt, Nat.not_lt] at hguard
    obtain ⟨⟨hlow, hhigh⟩, hle⟩ := hguard
    cases hplace : bitmapPlace image.stop ((m.frameCount + 7) / 8) with
    | error e =>
      rw [hplace] at hok
      cases hok
    | ok place =>
      rw [hplace, run_bind_ok (run_check place m)] at hok
      split at hok
      · cases hok
      · rename_i hroom
        rw [UInt64.lt_iff_toNat_lt, Nat.not_lt] at hroom
        exact ⟨place, hlow, hhigh, hle, hplace, hroom⟩

theorem setup_spec (h : Blank m) (hok : setup image m = .ok (.ok ()) m') : SetUp m m' image := by
  obtain ⟨place, hf⟩ := fits_of_setup h.ready hok
  obtain ⟨m₁, hrun, hset⟩ := setUp_of_fits h hf
  rw [hrun] at hok
  cases hok
  exact hset

/-- The store that a set-up leaves. -/
theorem finished_of_setup (h : Blank m) (hok : setup image m = .ok (.ok ()) m') :
    ∃ place m₃ text, Located m image place ∧
      m' = (m.finished m₃ place).noted .info .frames text := by
  obtain ⟨place, hf⟩ := fits_of_setup h.ready hok
  obtain ⟨m₂, m₃, hrun₂, hrun₃, hbits⟩ := clearAndMark_spec h hf
  obtain ⟨text, hrun⟩ := run_setup h hf hrun₂ hrun₃ hbits.frames
  rw [hrun] at hok
  cases hok
  exact ⟨place, m₃, text, located_of_fits h hf, rfl⟩

/-- Setting up counts nothing. -/
theorem stats_of_setup (h : Blank m) (hok : setup image m = .ok (.ok ()) m') :
    m'.frames.stats = m.frames.stats := by
  obtain ⟨place, m₃, text, -, rfl⟩ := finished_of_setup h hok
  rfl

/-- The bitmap begins with the first page behind the image. -/
theorem bitmap_of_setup (h : Blank m) (hok : setup image m = .ok (.ok ()) m') :
    m'.frames.bitmap.num = (image.stop.num + 4095) / 4096 * 4096 := by
  obtain ⟨place, m₃, text, hlocated, rfl⟩ := finished_of_setup h hok
  exact hlocated.start

theorem SetUp.waiting (h : SetUp m m' image) : m'.frames.waiting = 0 := by
  rw [Frames.waiting, h.parked]
  exact Nat.zero_sub _

/-- All frames behind the bitmap can be had. -/
theorem SetUp.supply (h : SetUp m m' image) (hf : Fits m image place) :
    place.stop.num + 4096 * m'.supply =
      m'.frames.region.start.num + 4096 * m'.frames.total := by
  have htotal := h.consistent.plan.total_eq
  have hbytes := h.consistent.plan.bitmapSize_eq
  have hreserved := h.reserved
  have hfree := h.free
  have htop := m.frames.region.stop.num_lt
  have hcount : m'.frames.total = m.frameCount := by
    rw [htotal, h.region]
    rfl
  obtain ⟨hstart, hstop⟩ := bitmapPlace_spec (by rw [frameCount]; omega) hf.placed
  rw [hbytes, hcount, ← hstart, ← hstop] at hreserved
  rw [Memory.supply, h.waiting, h.region]
  omega

/-! ## A small store -/

/-- A store that has not been set up, over 64 pages of RAM that are reached at their own
addresses. -/
def sample : Memory where
  board := .fresh (.zeroed ⟨0x40000000⟩ 64 0x40000000 0)
    (.fresh (.all 0) ⟨fun _ _ v => v, 0, id, fun a _ => a⟩) ⟨0x09000000, true⟩
  frames := { region := .ofWords 0x40000000 0x40040000, window := .identity }

/-- The image in the small store: its first four pages. -/
def sampleImage : PhysRange := .ofWords 0x40000000 0x40004000

theorem unset_sample : Unset sample := by
  have hsize : sample.board.ram.size = 4096 * 64 := size_zeroBytes _
  refine ⟨rfl, rfl, rfl, rfl, rfl, ?_, ?_⟩
  · have hw : sample.board.ram.Shows sample.board.ram.window :=
      Ram.shows_window (by rw [hsize]; decide)
    exact hw
  · rw [Ram.Has, hsize]
    decide

/-- Whatever RAM is under the small store, it is set up around its image. -/
theorem setUp_small (h : Blank m) (hframes : m.frames = sample.frames) :
    ∃ m', setup sampleImage m = .ok (.ok ()) m' ∧ SetUp m m' sampleImage ∧
      m'.frames.free = 59 ∧ m'.supply = 59 ∧
        m'.frames.region.start.num + 4096 * m'.frames.total = 0x40040000 := by
  have hfits : Fits m sampleImage (.ofWords 0x40004000 0x40005000) := by
    constructor
    case placed => rw [frameCount, hframes]; decide
    case le => decide
    all_goals rw [hframes]; decide
  obtain ⟨m', hrun, hset⟩ := setUp_of_fits h hfits
  have hregion : m'.frames.region.start.num = 0x40000000 ∧
      m'.frames.region.stop.num = 0x40040000 := by
    rw [hset.region, hframes]
    exact ⟨rfl, rfl⟩
  have htotal := hset.consistent.plan.total_eq
  have hbytes := hset.consistent.plan.bitmapSize_eq
  have hreserved := hset.reserved
  have hfree := hset.free
  rw [← hset.region, hregion.1, show sampleImage.stop.num = 0x40004000 from rfl] at hreserved
  rw [hregion.1, hregion.2] at htotal
  refine ⟨m', hrun, hset, by omega, ?_, ?_⟩
  · rw [Memory.supply, hset.waiting]
    omega
  · rw [hregion.1]
    omega

theorem setUp_sample : ∃ m, setup sampleImage sample = .ok (.ok ()) m ∧
    SetUp sample m sampleImage ∧ m.frames.free = 59 ∧ m.supply = 59 ∧
      m.frames.region.start.num + 4096 * m.frames.total = 0x40040000 :=
  setUp_small unset_sample.blank rfl

end Memory

end HighHalf
