import Mathlib.Data.Finset.Card
import Mathlib.Data.Finset.Range
import HighHalf.Proofs.Board.Bank
import HighHalf.Proofs.Board.Steps

/-!
# Marks of the bitmap

A frame is marked by one bit of one byte of RAM. Setting or clearing a mark changes that mark
and no other, and no byte outside the bitmap; the scan for a free frame finds the lowest one
that is not marked.
-/

namespace HighHalf

/-! ## Bits of a byte -/

/-- Bit `k` of a byte, as the bitmap reads it. -/
theorem shift_and_one (b : UInt8) {k : Nat} (hk : k < 8) :
    ((b >>> UInt8.ofNat k) &&& 1).toNat = (b.toNat.testBit k).toNat := by
  have hk' : (UInt8.ofNat k).toNat % 8 = k := by
    rw [UInt8.toNat_ofNat_of_lt' (by show k < 256; omega)]
    omega
  rw [UInt8.toNat_and, UInt8.toNat_shiftRight, hk', show (1 : UInt8).toNat = 1 from rfl,
    Nat.and_one_is_mod, Nat.toNat_testBit, Nat.shiftRight_eq_div_pow]

theorem shift_and_one_eq_one_iff (b : UInt8) {k : Nat} (hk : k < 8) :
    (b >>> UInt8.ofNat k) &&& 1 = 1 ↔ b.toNat.testBit k = true := by
  rw [← UInt8.toNat_inj, shift_and_one b hk]
  cases b.toNat.testBit k <;> decide

theorem shift_and_one_eq_zero_iff (b : UInt8) {k : Nat} (hk : k < 8) :
    (b >>> UInt8.ofNat k) &&& 1 = 0 ↔ b.toNat.testBit k = false := by
  rw [← UInt8.toNat_inj, shift_and_one b hk]
  cases b.toNat.testBit k <;> decide

theorem toNat_bit {k : Nat} (hk : k < 8) : ((1 : UInt8) <<< UInt8.ofNat k).toNat = 2 ^ k := by
  have h : ∀ k ∈ List.range 8, ((1 : UInt8) <<< UInt8.ofNat k).toNat = 2 ^ k := by decide
  exact h k (List.mem_range.2 hk)

theorem testBit_setBit (b : UInt8) {k j : Nat} (hk : k < 8) :
    (b ||| (1 <<< UInt8.ofNat k)).toNat.testBit j = (decide (j = k) || b.toNat.testBit j) := by
  rw [UInt8.toNat_or, toNat_bit hk, Nat.testBit_or, Nat.testBit_two_pow, Bool.or_comm]
  simp [eq_comm]

theorem testBit_clearBit (b : UInt8) {k j : Nat} (hk : k < 8) (hj : j < 8) :
    (b &&& ~~~(1 <<< UInt8.ofNat k)).toNat.testBit j
      = (!decide (j = k) && b.toNat.testBit j) := by
  have hnot : ∀ k ∈ List.range 8, ∀ j ∈ List.range 8,
      (~~~((1 : UInt8) <<< UInt8.ofNat k)).toNat.testBit j = !decide (j = k) := by decide
  rw [UInt8.toNat_and, Nat.testBit_and, hnot k (List.mem_range.2 hk) j (List.mem_range.2 hj),
    Bool.and_comm]

/-! ## The scan -/

namespace Memory

/-- The mark of frame `j` in the bytes `byte 0, byte 1, …`. -/
def markIn (byte : Nat → UInt8) (j : Nat) : Bool := (byte (j / 8)).toNat.testBit (j % 8)

theorem clearBit?_eq_some {b : UInt8} {k : Nat} (h : clearBit? b = some k) :
    k < 8 ∧ b.toNat.testBit k = false ∧ ∀ j < k, b.toNat.testBit j = true := by
  rw [clearBit?, List.find?_range_eq_some] at h
  obtain ⟨hbit, hmem, hmin⟩ := h
  have hk : k < 8 := List.mem_range.1 hmem
  refine ⟨hk, ?_, ?_⟩
  · exact (shift_and_one_eq_zero_iff b hk).1 (by simpa using hbit)
  · intro j hj
    have hne := hmin j hj
    cases hb : b.toNat.testBit j with
    | true => rfl
    | false =>
      rw [(shift_and_one_eq_zero_iff b (by omega)).2 hb] at hne
      simp at hne

theorem clearBit?_eq_none {b : UInt8} (h : clearBit? b = none) {j : Nat} (hj : j < 8) :
    b.toNat.testBit j = true := by
  rw [clearBit?, List.find?_eq_none] at h
  have hne := h j (List.mem_range.2 hj)
  cases hb : b.toNat.testBit j with
  | true => rfl
  | false =>
    rw [(shift_and_one_eq_zero_iff b hj).2 hb] at hne
    simp at hne

theorem testBit_full {j : Nat} (hj : j < 8) : (0xFF : UInt8).toNat.testBit j = true := by
  have h : ∀ j ∈ List.range 8, (0xFF : UInt8).toNat.testBit j = true := by decide
  exact h j (List.mem_range.2 hj)

theorem firstClear_congr {byte byte' : Nat → UInt8} (total i n : Nat)
    (h : ∀ j, i ≤ j → j < i + n → byte' j = byte j) :
    firstClear byte' total i n = firstClear byte total i n := by
  induction n generalizing i with
  | zero => rfl
  | succ n ih =>
    rw [firstClear, firstClear, h i (Nat.le_refl i) (by omega),
      ih (i + 1) fun j hj hj' => h j (by omega) (by omega)]

/-- The scan goes on behind a byte whose frames below `total` are all marked. -/
theorem firstClear_skip {byte : Nat → UInt8} {total i k : Nat}
    (hfull : ∀ j < 8, i * 8 + j < total → (byte i).toNat.testBit j = true)
    (hrest : ∀ j, (i + 1) * 8 ≤ j → j < k → j < total → markIn byte j = true) {j : Nat}
    (hj : i * 8 ≤ j) (hjk : j < k) (hjt : j < total) : markIn byte j = true := by
  by_cases h : j < (i + 1) * 8
  · have hdiv : j / 8 = i := by omega
    have hmod : i * 8 + j % 8 = j := by omega
    rw [markIn, hdiv]
    exact hfull (j % 8) (by omega) (by omega)
  · exact hrest j (by omega) hjk hjt

theorem firstClear_eq_some {byte : Nat → UInt8} {total i n k : Nat}
    (h : firstClear byte total i n = some k) :
    i * 8 ≤ k ∧ k < (i + n) * 8 ∧ k < total ∧ markIn byte k = false ∧
      ∀ j, i * 8 ≤ j → j < k → markIn byte j = true := by
  induction n generalizing i with
  | zero => cases h
  | succ n ih =>
    unfold firstClear at h
    split at h
    · -- a full byte
      rename_i hff
      obtain ⟨h1, h2, h3, h4, h5⟩ := ih h
      refine ⟨by omega, by omega, h3, h4, fun j hj hjk => ?_⟩
      exact firstClear_skip (fun j hj _ => by rw [hff]; exact testBit_full hj)
        (fun j hj hjk _ => h5 j hj hjk) hj hjk (by omega)
    · split at h
      · rename_i c hc
        obtain ⟨hc8, hclear, hset⟩ := clearBit?_eq_some hc
        split at h
        · -- the clear bit is the answer
          cases h
          have hmark : ∀ j < 8, markIn byte (i * 8 + j) = (byte i).toNat.testBit j := by
            intro j hj
            rw [markIn, show (i * 8 + j) / 8 = i by omega, show (i * 8 + j) % 8 = j by omega]
          refine ⟨by omega, by omega, by assumption, by rw [hmark c hc8, hclear], ?_⟩
          intro j hj hjk
          rw [show j = i * 8 + (j - i * 8) by omega, hmark _ (by omega)]
          exact hset _ (by omega)
        · -- the clear bit is past the last frame, and so is everything behind it
          obtain ⟨h1, h2, h3, h4, h5⟩ := ih h
          omega
      · rename_i hc
        obtain ⟨h1, h2, h3, h4, h5⟩ := ih h
        refine ⟨by omega, by omega, h3, h4, fun j hj hjk => ?_⟩
        exact firstClear_skip (fun j hj _ => clearBit?_eq_none hc hj)
          (fun j hj hjk _ => h5 j hj hjk) hj hjk (by omega)

theorem firstClear_eq_none {byte : Nat → UInt8} {total i n : Nat}
    (h : firstClear byte total i n = none) {j : Nat} (hj : i * 8 ≤ j) (hjn : j < (i + n) * 8)
    (hjt : j < total) : markIn byte j = true := by
  induction n generalizing i j with
  | zero => omega
  | succ n ih =>
    unfold firstClear at h
    have hnext : firstClear byte total (i + 1) n = none → ∀ j, (i + 1) * 8 ≤ j →
        j < (i + (n + 1)) * 8 → j < total → markIn byte j = true :=
      fun h j hj hjn hjt => ih h hj (by omega) hjt
    split at h
    · rename_i hff
      exact firstClear_skip (fun j hj _ => by rw [hff]; exact testBit_full hj) (hnext h) hj hjn hjt
    · split at h
      · rename_i c hc
        obtain ⟨hc8, hclear, hset⟩ := clearBit?_eq_some hc
        split at h
        · cases h
        · exact firstClear_skip (fun j _ hj => hset j (by omega)) (hnext h) hj hjn hjt
      · rename_i hc
        exact firstClear_skip (fun j hj _ => clearBit?_eq_none hc hj) (hnext h) hj hjn hjt

/-! ## Marks in RAM -/

/-- The window shows RAM, and the bitmap lies in it. -/
structure BitmapInside (m : Memory) : Prop where
  shows : m.board.ram.Shows m.frames.window
  has : m.board.ram.Has m.frames.bitmap.num m.frames.bitmapSize

/-- The byte of RAM at physical address `n`. -/
def cell (m : Memory) (n : Nat) : UInt8 := m.board.ram.cell n

/-- Whether physical address `n` is in the bitmap. -/
def InBitmap (m : Memory) (n : Nat) : Prop :=
  m.frames.bitmap.num ≤ n ∧ n < m.frames.bitmap.num + m.frames.bitmapSize

instance (m : Memory) (n : Nat) : Decidable (m.InBitmap n) := inferInstanceAs (Decidable (_ ∧ _))

variable {m m' : Memory} {i j : Nat}

theorem BitmapInside.place (h : BitmapInside m) (hi : i < m.frames.bitmapSize) :
    m.frames.bitmapByte i = m.frames.window.reach (m.frames.bitmap.up i) ∧
      (m.frames.bitmap.up i).num = m.frames.bitmap.num + i ∧
      m.board.ram.Has (m.frames.bitmap.num + i) 1 :=
  ⟨(Window.reach_up ..).symm, h.has.num_up h.shows.top hi, h.has.mono (by omega) (by omega)⟩

theorem bitmapByte_eq (h : BitmapInside m) (hi : i < m.frames.bitmapSize) :
    m.bitmapByte i = m.cell (m.frames.bitmap.num + i) := by
  obtain ⟨hplace, hnum, hhas⟩ := h.place hi
  rw [bitmapByte, hplace, Ram.byte_reach h.shows (by rw [hnum]; exact hhas), hnum, cell]

theorem marked_eq (hi : i / 8 < m.frames.bitmapSize) :
    m.marked i = markIn m.bitmapByte i := by
  have h8 : i % 8 < 8 := Nat.mod_lt _ (by omega)
  rw [marked, if_pos hi, markIn]
  cases hb : (m.bitmapByte (i / 8)).toNat.testBit (i % 8) with
  | true => exact decide_eq_true ((shift_and_one_eq_one_iff _ h8).2 hb)
  | false =>
    refine decide_eq_false fun hone => ?_
    rw [(shift_and_one_eq_one_iff _ h8).1 hone] at hb
    cases hb

/-- Marks hang on the bytes of the bitmap, through whatever window they are read. -/
theorem marked_congr (h : BitmapInside m) (h' : BitmapInside m')
    (hbitmap : m'.frames.bitmap = m.frames.bitmap)
    (hsize : m'.frames.bitmapSize = m.frames.bitmapSize)
    (hcell : ∀ n, m.InBitmap n → m'.cell n = m.cell n) (i : Nat) :
    m'.marked i = m.marked i := by
  by_cases hi : i / 8 < m.frames.bitmapSize
  · have hi' : i / 8 < m'.frames.bitmapSize := by rwa [hsize]
    rw [marked_eq hi, marked_eq hi', markIn, markIn, bitmapByte_eq h hi, bitmapByte_eq h' hi',
      hbitmap, hcell _ ⟨by omega, by omega⟩]
  · rw [marked, marked, if_neg hi, if_neg (by rwa [hsize])]

/-- A byte with the bit of frame `i` set or cleared. -/
def remarked (b : UInt8) (i : Nat) (used : Bool) : UInt8 :=
  if used then b ||| (1 <<< UInt8.ofNat (i % 8)) else b &&& ~~~(1 <<< UInt8.ofNat (i % 8))

/-- Changing one bit of one byte changes the mark of one frame. -/
theorem markIn_remarked (byte : Nat → UInt8) (i j : Nat) (used : Bool) :
    markIn (fun k => if k = i / 8 then remarked (byte (i / 8)) i used else byte k) j =
      if j = i then used else markIn byte j := by
  have h8 : i % 8 < 8 := Nat.mod_lt _ (by omega)
  unfold markIn
  dsimp only
  by_cases he : j / 8 = i / 8
  · rw [if_pos he, he]
    cases used with
    | true =>
      -- In the byte of frame `i`, the bits of other frames stay.
      rw [remarked, if_pos rfl, testBit_setBit _ h8]
      by_cases hji : j = i
      · rw [if_pos hji, decide_eq_true (by rw [hji]), Bool.true_or]
      · rw [if_neg hji, decide_eq_false (by omega), Bool.false_or]
    | false =>
      rw [remarked, if_neg (by simp), testBit_clearBit _ h8 (Nat.mod_lt _ (by omega))]
      by_cases hji : j = i
      · rw [if_pos hji, decide_eq_true (by rw [hji])]
        rfl
      · rw [if_neg hji, decide_eq_false (by omega)]
        rfl
  · rw [if_neg he, if_neg fun hji => he (by rw [hji])]

/-- One byte is stored, if the frame has a bit. -/
theorem run_mark (i : Nat) (used : Bool) (m : Memory) : mark i used m = .ok ()
    (if i / 8 < m.frames.bitmapSize then
      m.stored (.byte (m.frames.bitmapByte (i / 8)) (remarked (m.bitmapByte (i / 8)) i used))
    else m) := by
  by_cases hi : i / 8 < m.frames.bitmapSize
  · simp [mark, run_bind, hi, remarked]
  · simp [mark, run_bind, hi]

/-- What setting or clearing the mark of frame `i` does. -/
structure Marks (m m' : Memory) (i : Nat) (used : Bool) : Prop where
  frames : m'.frames = m.frames
  bank : Ram.SameBank m.board.ram m'.board.ram
  cells : ∀ n, m.board.ram.base.num ≤ n → ¬ m.InBitmap n → m'.cell n = m.cell n
  marked : ∀ j, m'.marked j = if j = i ∧ i / 8 < m.frames.bitmapSize then used else m.marked j

theorem mark_spec (h : BitmapInside m) (i : Nat) (used : Bool) :
    ∃ m', mark i used m = .ok () m' ∧ Marks m m' i used := by
  by_cases hi : i / 8 < m.frames.bitmapSize
  · obtain ⟨hplace, hnum, hhas⟩ := h.place hi
    obtain ⟨new, hnew⟩ : ∃ new, new = remarked (m.bitmapByte (i / 8)) i used := ⟨_, rfl⟩
    obtain ⟨m', hm'⟩ : ∃ m', m' = m.stored (.byte (m.frames.bitmapByte (i / 8)) new) := ⟨_, rfl⟩
    have hrun : mark i used m = .ok () m' := by rw [run_mark, if_pos hi, hm', hnew]
    have hframes : m'.frames = m.frames := by rw [hm']; rfl
    have hram : m'.board.ram = m.board.ram.setByte (m.frames.bitmapByte (i / 8)) new := by
      rw [hm']; rfl
    have hbank : Ram.SameBank m.board.ram m'.board.ram := by
      rw [hram]
      exact Ram.sameBank_setByte ..
    have hin' : BitmapInside m' :=
      ⟨by rw [hframes]; exact hbank.shows h.shows, by rw [hframes]; exact hbank.has.2 h.has⟩
    have hcell : ∀ n, m.board.ram.base.num ≤ n →
        m'.cell n = if n = m.frames.bitmap.num + i / 8 then new else m.cell n := by
      intro n hn
      rw [cell, hram, hplace, Ram.cell_setByte h.shows (by rw [hnum]; exact hhas) _ hn, hnum]
      rfl
    refine ⟨m', hrun, hframes, hbank, ?_, ?_⟩
    · intro n hn hout
      rw [hcell n hn, if_neg]
      exact fun he => hout ⟨by omega, by omega⟩
    · intro j
      have hlow := h.has.1
      by_cases hj : j / 8 < m.frames.bitmapSize
      · have hj' : j / 8 < m'.frames.bitmapSize := by rwa [hframes]
        have hbyte : m'.bitmapByte (j / 8) =
            if j / 8 = i / 8 then new else m.bitmapByte (j / 8) := by
          rw [bitmapByte_eq hin' hj', bitmapByte_eq h hj, hframes, hcell _ (by omega)]
          by_cases he : j / 8 = i / 8
          · rw [if_pos (by omega), if_pos he]
          · rw [if_neg (by omega), if_neg he]
        have hmark := markIn_remarked m.bitmapByte i j used
        rw [marked_eq hj', marked_eq hj]
        simp only [hi, and_true]
        rw [← hmark, markIn, markIn, hbyte, hnew]
      · rw [if_neg (fun c => hj (by rw [c.1]; exact c.2)), Memory.marked, Memory.marked,
          if_neg hj, if_neg (by rwa [hframes])]
  · -- A frame past the bitmap has no bit, so nothing is stored.
    refine ⟨m, by rw [run_mark, if_neg hi], rfl, Ram.SameBank.refl _, fun _ _ _ => rfl, ?_⟩
    intro j
    rw [if_neg (fun c => hi c.2)]

end Memory

end HighHalf
