import Mathlib.Data.Nat.Digits.Lemmas
import HighHalf.Proofs.Tables.Ranges

/-!
# Arithmetic of canonical addresses

Putting a word into canonical form keeps its low 48 bits and forgets the rest, so sums may be put
into canonical form as often as one likes, or only once. The low 48 bits are the four slots and
the place in the page, side by side: a canonical address is made of them by repeating bit 47
above them. The slots, leaf table first, are the digits of the page number to base 512, and going
up by some pages adds to them digit by digit, with carries from the leaf table towards the root.

## Main definitions

* `Word.lowDigits`: the lowest digits of a number to base 512
* `Word.addDigits`: the sum of two numbers by their digits, with carries
* `VirtAddr.ofSlots`: the address with given slots and a given place in its page
* `VirtAddr.Stays`: going up by some pages does not leave the half of an address

## Main results

* `VirtAddr.trail_add_pages`: the slots some pages further up
* `VirtAddr.canonical_arithmetic`: the laws of canonical form, of sums and of slots
-/

namespace HighHalf

/-! ## Digits to base 512 -/

namespace Word

/-- The `k` lowest digits of `n` to base 512, the lowest first. -/
def lowDigits : Nat → Nat → List Nat
  | 0, _ => []
  | k + 1, n => n % 512 :: lowDigits k (n / 512)

/-- The sum of two numbers by their digits to base 512, the lowest first, with a carry into the
lowest. Gives the digits of the sum and the carry out of the highest. -/
def addDigits : List Nat → List Nat → Nat → List Nat × Nat
  | d :: ds, e :: es, carry =>
    let (sum, out) := addDigits ds es ((d + e + carry) / 512)
    ((d + e + carry) % 512 :: sum, out)
  | _, _, carry => ([], carry)

variable {k d : Nat} {ds es : List Nat}

theorem ofDigits_lowDigits (k n : Nat) : Nat.ofDigits 512 (lowDigits k n) = n % 512 ^ k := by
  induction k generalizing n with
  | zero => rw [lowDigits, Nat.ofDigits_nil, pow_zero, Nat.mod_one]
  | succ k ih => rw [lowDigits, Nat.ofDigits_cons, ih, pow_succ', Nat.mod_mul]

theorem lt_of_mem_lowDigits {n : Nat} (h : d ∈ lowDigits k n) : d < 512 := by
  induction k generalizing n with
  | zero => cases h
  | succ k ih =>
    rcases List.mem_cons.1 h with rfl | h
    · exact Nat.mod_lt n (by omega)
    · exact ih h

theorem length_addDigits (h : ds.length = es.length) (carry : Nat) :
    (addDigits ds es carry).1.length = ds.length := by
  induction ds generalizing es carry with
  | nil => rfl
  | cons d ds ih =>
    cases es with
    | nil => cases h
    | cons e es => exact congrArg Nat.succ (ih (Nat.succ.inj h) _)

theorem lt_of_mem_addDigits {carry : Nat} (h : d ∈ (addDigits ds es carry).1) : d < 512 := by
  induction ds generalizing es carry with
  | nil => cases h
  | cons d₀ ds ih =>
    cases es with
    | nil => cases h
    | cons e es =>
      rcases List.mem_cons.1 h with rfl | h
      · exact Nat.mod_lt _ (by omega)
      · exact ih h

/-- Nothing is lost: digits and carry of the sum stand for the two numbers and the carry in. -/
theorem ofDigits_addDigits (h : ds.length = es.length) (carry : Nat) :
    Nat.ofDigits 512 (addDigits ds es carry).1 + 512 ^ ds.length * (addDigits ds es carry).2 =
      Nat.ofDigits 512 ds + Nat.ofDigits 512 es + carry := by
  induction ds generalizing es carry with
  | nil =>
    cases es with
    | nil => simp [addDigits]
    | cons e es => cases h
  | cons d ds ih =>
    cases es with
    | nil => cases h
    | cons e es =>
      have hrest := ih (Nat.succ.inj h) ((d + e + carry) / 512)
      have hdigit := Nat.mod_add_div (d + e + carry) 512
      rw [addDigits]
      simp only [Nat.ofDigits_cons, List.length_cons, pow_succ']
      linarith

/-- A number below `512 ^ k` that is the sum has the digits of the sum. -/
theorem eq_addDigits (hd : ∀ d ∈ ds, d < 512) {a b : List Nat} (ha : a.length = ds.length)
    (hb : b.length = ds.length) (hsum : Nat.ofDigits 512 ds =
      (Nat.ofDigits 512 a + Nat.ofDigits 512 b) % 512 ^ ds.length) :
    ds = (addDigits a b 0).1 := by
  have hlength := length_addDigits (ha.trans hb.symm) 0
  have hvalue := ofDigits_addDigits (ha.trans hb.symm) 0
  have hlt : Nat.ofDigits 512 (addDigits a b 0).1 < 512 ^ ds.length := by
    rw [← ha, ← hlength]
    exact Nat.ofDigits_lt_base_pow_length (by omega) fun d hd => lt_of_mem_addDigits hd
  refine Nat.ofDigits_inj_of_len_eq (b := 512) (by omega) ?_ hd ?_ ?_
  · rw [hlength, ha]
  · exact fun d hd => lt_of_mem_addDigits hd
  · rw [ha, Nat.add_zero] at hvalue
    rw [hsum, ← hvalue, Nat.add_mul_mod_self_left, Nat.mod_eq_of_lt hlt]

end Word

namespace VirtAddr

open Word

variable {u v : VirtAddr} {k : Nat}

/-! ## Canonical form -/

/-- Canonical form remembers the low 48 bits and nothing else. -/
theorem ofWord_eq_iff (x y : Word) : ofWord x = ofWord y ↔ x.toNat % 2 ^ 48 = y.toNat % 2 ^ 48 := by
  constructor
  · intro h
    have hnum := congrArg num h
    rw [num_ofWord, num_ofWord] at hnum
    split at hnum <;> split at hnum <;> omega
  · intro h
    refine num_inj ?_
    rw [num_ofWord, num_ofWord, h]

theorem num_ofWord_mod (x : Word) : (ofWord x).num % 2 ^ 48 = x.toNat % 2 ^ 48 := by
  rw [num_ofWord]
  split <;> omega

/-- A sum may be put into canonical form at once. -/
theorem add_ofWord (x y : Word) : (ofWord x).add y = ofWord (x + y) := by
  have hx : (ofWord x).val.toNat % 2 ^ 48 = x.toNat % 2 ^ 48 := num_ofWord_mod x
  rw [add, ofWord_eq_iff, UInt64.toNat_add, UInt64.toNat_add]
  omega

theorem add_add (v : VirtAddr) (m n : Word) : (v.add m).add n = v.add (m + n) := by
  show (ofWord (v.val + m)).add n = ofWord (v.val + (m + n))
  rw [add_ofWord, UInt64.add_assoc]

/-! ## Slots and the place in the page -/

/-- The address with slots `a` to `d`, the root's first, and a place in its page: the five fields
side by side, and above them copies of their highest bit. -/
def ofSlots (a b c d : Nat) (place : Word) : VirtAddr :=
  ⟨⟨(BitVec.ofNat 9 a ++ BitVec.ofNat 9 b ++ BitVec.ofNat 9 c ++ BitVec.ofNat 9 d ++
    BitVec.ofNat 12 place.toNat).signExtend 64⟩⟩

/-- Two fields side by side. -/
theorem toNat_append_eq {m n : Nat} (x : BitVec m) (y : BitVec n) :
    (x ++ y).toNat = x.toNat * 2 ^ n + y.toNat := by
  rw [BitVec.toNat_append, ← Nat.shiftLeft_add_eq_or_of_lt y.isLt, Nat.shiftLeft_eq]

theorem num_ofSlots {a b c d : Nat} (ha : a < 512) (hb : b < 512) (hc : c < 512) (hd : d < 512)
    {place : Word} (hplace : place.toNat < 4096) :
    (ofSlots a b c d place).num =
      (((a * 512 + b) * 512 + c) * 512 + d) * 4096 + place.toNat +
        if a < 256 then 0 else 2 ^ 64 - 2 ^ 48 := by
  have hfields : (BitVec.ofNat 9 a ++ BitVec.ofNat 9 b ++ BitVec.ofNat 9 c ++ BitVec.ofNat 9 d ++
      BitVec.ofNat 12 place.toNat).toNat =
      (((a * 512 + b) * 512 + c) * 512 + d) * 4096 + place.toNat := by
    simp only [toNat_append_eq, BitVec.toNat_ofNat]
    omega
  show (BitVec.signExtend 64 _).toNat = _
  rw [BitVec.toNat_signExtend, BitVec.toNat_setWidth, BitVec.msb_eq_decide, hfields,
    Nat.mod_eq_of_lt (by omega)]
  congr 1
  by_cases hsign : a < 256
  · rw [if_pos hsign, if_neg]
    rw [decide_eq_true_iff]
    omega
  · rw [if_neg hsign, if_pos]
    rw [decide_eq_true_iff]
    omega

/-- A canonical address is recovered from its slots and its place in the page. -/
theorem ofSlots_slot (hv : v.Canonical) :
    ofSlots (v.slot 0) (v.slot 1) (v.slot 2) (v.slot 3) v.inPage = v := by
  have hplace := v.num_inPage
  have hlt := v.num_lt
  rw [canonical_iff] at hv
  refine num_inj ?_
  rw [num_ofSlots (v.slot_lt 0) (v.slot_lt 1) (v.slot_lt 2) (v.slot_lt 3) (by omega), hplace]
  simp only [slot, page_eq]
  norm_num
  split <;> omega

/-- Canonical addresses with the same slots and the same place in their pages are the same. -/
theorem eq_of_slots (hu : u.Canonical) (hv : v.Canonical) (htrail : u.trail 4 = v.trail 4)
    (hplace : u.inPage = v.inPage) : u = v := by
  simp only [trail, List.cons.injEq, and_true] at htrail
  obtain ⟨h3, h2, h1, h0⟩ := htrail
  rw [← ofSlots_slot hu, ← ofSlots_slot hv, h0, h1, h2, h3, hplace]

/-! ## Going up by pages -/

/-- The slots are the digits of the page number. -/
theorem trail_eq_lowDigits (v : VirtAddr) : v.trail 4 = lowDigits 4 v.page := by
  simp only [trail, slot, lowDigits, Nat.div_div_eq_div_mul]
  norm_num

theorem ofDigits_trail (v : VirtAddr) : Nat.ofDigits 512 (v.trail 4) = v.page % 512 ^ 4 := by
  rw [trail_eq_lowDigits, ofDigits_lowDigits]

/-- The slots `k` pages further up: those of `v` and the digits of `k`, added with carries from
the leaf table to the root. -/
theorem trail_add_pages (v : VirtAddr) (k : Nat) :
    (v.add (UInt64.ofNat (4096 * k))).trail 4 =
      (addDigits (v.trail 4) (lowDigits 4 k) 0).1 := by
  have hmod := v.num_add_mod (4096 * k)
  refine eq_addDigits (fun d hd => ?_) rfl rfl ?_
  · rw [trail_eq_lowDigits] at hd
    exact lt_of_mem_lowDigits hd
  · rw [ofDigits_trail, ofDigits_trail, ofDigits_lowDigits, length_trail, page_eq, page_eq]
    omega

/-- `v` is canonical, and `k` pages further up is the same half of the address space. -/
def Stays (v : VirtAddr) (k : Nat) : Prop :=
  v.num + 4096 * k < 2 ^ 47 ∨ 2 ^ 64 - 2 ^ 47 ≤ v.num ∧ v.num + 4096 * k < 2 ^ 64

theorem Stays.num_add (h : v.Stays k) :
    (v.add (UInt64.ofNat (4096 * k))).num = v.num + 4096 * k := by
  unfold Stays at h
  have hoffset : (UInt64.ofNat (4096 * k)).toNat = 4096 * k :=
    UInt64.toNat_ofNat_of_lt' (by show _ < 2 ^ 64; omega)
  rw [VirtAddr.num_add (by omega), hoffset]

/-- Inside one half there is no carry out of the root's slot. -/
theorem Stays.carry (h : v.Stays k) : (addDigits (v.trail 4) (lowDigits 4 k) 0).2 = 0 := by
  have hsame : (v.trail 4).length = (lowDigits 4 k).length := rfl
  have hvalue := ofDigits_addDigits hsame 0
  rw [ofDigits_trail, ofDigits_lowDigits, length_trail, page_eq] at hvalue
  unfold Stays at h
  omega

/-! ## The laws together -/

/-- Canonical form is idempotent and hangs on the low 48 bits alone, sums may be put into
canonical form once, and an address is its slots and its place in the page. Going up by some
pages inside one half adds to the slots with carries, and none leaves the root's slot. -/
theorem canonical_arithmetic :
    (∀ x : Word, ofWord (ofWord x).val = ofWord x) ∧
    (∀ x y : Word, ofWord x = ofWord y ↔ x.toNat % 2 ^ 48 = y.toNat % 2 ^ 48) ∧
    (∀ x y : Word, (ofWord x).add y = ofWord (x + y)) ∧
    (∀ (v : VirtAddr) (m n : Word), (v.add m).add n = v.add (m + n)) ∧
    (∀ x : Word, ofSlots ((ofWord x).slot 0) ((ofWord x).slot 1) ((ofWord x).slot 2)
      ((ofWord x).slot 3) (ofWord x).inPage = ofWord x) ∧
    (∀ u v : VirtAddr, u.Canonical → v.Canonical → (∀ level < 4, u.slot level = v.slot level) →
      u.inPage = v.inPage → u = v) ∧
    ∀ (v w : VirtAddr) (k : Nat), v.Stays k → w = v.add (UInt64.ofNat (4096 * k)) →
      w.num = v.num + 4096 * k ∧
      ([w.slot 3, w.slot 2, w.slot 1, w.slot 0], 0) =
        addDigits [v.slot 3, v.slot 2, v.slot 1, v.slot 0] (lowDigits 4 k) 0 := by
  refine ⟨canonical_ofWord, ofWord_eq_iff, add_ofWord, add_add,
    fun x => ofSlots_slot (canonical_ofWord x), fun u v hu hv hslots hplace => ?_,
    fun v w k hstays hw => ⟨?_, ?_⟩⟩
  · refine eq_of_slots hu hv ?_ hplace
    simp only [trail, hslots 3 (by omega), hslots 2 (by omega), hslots 1 (by omega),
      hslots 0 (by omega)]
  · rw [hw, hstays.num_add]
  · exact Prod.ext (hw ▸ v.trail_add_pages k) hstays.carry.symm

/-- One page up from the last page under the root's slot 0 there are three carries; and the first
page of the high half is known by its slots. -/
theorem canonical_arithmetic_sample :
    (∃ v w : VirtAddr, v.Stays 1 ∧ w = v.add 4096 ∧
      [v.slot 3, v.slot 2, v.slot 1, v.slot 0] = [511, 511, 511, 0] ∧
      [w.slot 3, w.slot 2, w.slot 1, w.slot 0] = [0, 0, 0, 1]) ∧
    ofWord 0x1234800000000008 = ⟨0xFFFF800000000008⟩ := by
  obtain ⟨-, -, -, -, -, hsame, hcarry⟩ := canonical_arithmetic
  constructor
  · have hstays : Stays ⟨0x7FFFFFF000⟩ 1 := Or.inl (by decide)
    obtain ⟨-, hslots⟩ := hcarry ⟨0x7FFFFFF000⟩ ⟨0x8000000000⟩ 1 hstays (by decide)
    refine ⟨⟨0x7FFFFFF000⟩, ⟨0x8000000000⟩, hstays, by decide, by decide, ?_⟩
    exact (congrArg Prod.fst hslots).trans (by decide)
  · exact hsame _ _ (canonical_ofWord _) (by rw [Canonical]; decide) (by decide) (by decide)

end VirtAddr

end HighHalf
