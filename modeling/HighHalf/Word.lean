/-!
# 64-bit words

Addresses, descriptors and register values are 64-bit words. This module holds their two
hexadecimal spellings and the two arithmetic operations that refuse to leave 64 bits;
everything that is meant to wrap uses the word's own `+` and `-`.
-/

namespace HighHalf

/-- A 64-bit machine word. -/
abbrev Word := UInt64

namespace Word

/-- `value` in the field that begins at bit `position`. -/
def field (value position : Word) : Word := value <<< position

/-! ## Hexadecimal text -/

/-- Lower-case hexadecimal digits without leading zeros. -/
def digits (w : Word) : String := String.ofList (Nat.toDigits 16 w.toNat)

/-- `0x` and the shortest digits. -/
def hex (w : Word) : String := "0x" ++ w.digits

/-- `0x` and at least `width` digits, filled up with zeros on the left. -/
def hexPadded (w : Word) (width : Nat) : String :=
  "0x" ++ "".pushn '0' (width - w.digits.length) ++ w.digits

/-- `0x` and all sixteen digits. -/
def hex16 (w : Word) : String := w.hexPadded 16

/-- The value of a hexadecimal digit. -/
def digitValue? (c : Char) : Option Nat :=
  if '0' ≤ c && c ≤ '9' then some (c.toNat - '0'.toNat)
  else if 'a' ≤ c && c ≤ 'f' then some (c.toNat - 'a'.toNat + 10)
  else if 'A' ≤ c && c ≤ 'F' then some (c.toNat - 'A'.toNat + 10)
  else none

/-- The number that a list of digits adds to `n`, which stands before them. -/
def digitsValue? (n : Nat) : List Char → Option Nat
  | [] => some n
  | c :: rest =>
    match digitValue? c with
    | some d => digitsValue? (16 * n + d) rest
    | none => none

/-- Read `0x` and one to sixteen digits. -/
def ofHex? (s : String) : Option Word :=
  match s.toList with
  | '0' :: 'x' :: ds =>
    if ds.isEmpty || 16 < ds.length then none else (digitsValue? 0 ds).map UInt64.ofNat
  | _ => none

/-! ## Arithmetic that stays inside 64 bits -/

/-- The sum, if it is below `2 ^ 64`. A wrapped sum is smaller than either operand. -/
def add? (a b : Word) : Option Word :=
  let sum := a + b
  if sum < a then none else some sum

/-- The difference, if it is not negative. -/
def sub? (a b : Word) : Option Word := if b ≤ a then some (a - b) else none

theorem add?_eq_some_iff {a b c : Word} :
    add? a b = some c ↔ c.toNat = a.toNat + b.toNat := by
  have ha := a.toNat_lt
  have hb := b.toNat_lt
  have hc := c.toNat_lt
  unfold add?
  simp only [UInt64.lt_iff_toNat_lt, UInt64.toNat_add]
  split
  · simp; omega
  · rw [Option.some.injEq, ← UInt64.toNat_inj, UInt64.toNat_add]
    omega

theorem add?_eq_none_iff {a b : Word} :
    add? a b = none ↔ 0x10000000000000000 ≤ a.toNat + b.toNat := by
  have ha := a.toNat_lt
  have hb := b.toNat_lt
  unfold add?
  simp only [UInt64.lt_iff_toNat_lt, UInt64.toNat_add]
  split
  · simp; omega
  · simp; omega

theorem sub?_eq_some_iff {a b c : Word} :
    sub? a b = some c ↔ a.toNat = b.toNat + c.toNat := by
  have ha := a.toNat_lt
  have hc := c.toNat_lt
  unfold sub?
  split
  · rename_i h
    rw [Option.some.injEq, ← UInt64.toNat_inj, UInt64.toNat_sub_of_le _ _ h]
    rw [UInt64.le_iff_toNat_le] at h
    omega
  · rename_i h
    rw [UInt64.le_iff_toNat_le] at h
    simp; omega

end Word

end HighHalf
