/-!
# Byte arrays

Runs of zero bytes, and what replacing a byte or zeroing a run does to the bytes of an array.
Every statement goes through `byteAt`, which is zero past the end.
-/

namespace HighHalf

/-- Byte `i` of an array, zero past the end. -/
def byteAt (b : ByteArray) (i : Nat) : UInt8 := if h : i < b.size then b[i] else 0

theorem byteAt_eq_getD (b : ByteArray) (i : Nat) : byteAt b i = b.data[i]?.getD 0 := by
  unfold byteAt
  split
  · rename_i h
    rw [Array.getElem?_eq_getElem (show i < b.data.size from h)]
    rfl
  · rename_i h
    rw [Array.getElem?_eq_none (by exact Nat.not_lt.mp h)]
    rfl

/-! ## Replacing a byte -/

/-- The array with byte `i` replaced; an array that has no such byte stays as it is. -/
def putByte (b : ByteArray) (i : Nat) (v : UInt8) : ByteArray :=
  if h : i < b.size then b.set i v h else b

@[simp] theorem size_putByte (b : ByteArray) (i : Nat) (v : UInt8) :
    (putByte b i v).size = b.size := by
  unfold putByte
  split
  · exact Array.size_set _
  · rfl

theorem byteAt_putByte (b : ByteArray) (i j : Nat) (v : UInt8) :
    byteAt (putByte b i v) j = if i = j ∧ i < b.size then v else byteAt b j := by
  simp only [byteAt_eq_getD]
  unfold putByte
  split
  · rename_i h
    rw [show (b.set i v h).data = b.data.set i v h from rfl, Array.getElem?_set]
    split <;> simp_all
  · rename_i h
    rw [if_neg (fun c => h c.2)]

/-! ## Runs of zero bytes -/

/-- `n` zero bytes. Each half is made once and used twice. -/
def zeroBytes (n : Nat) : ByteArray :=
  if n = 0 then .empty
  else
    let half := zeroBytes (n / 2)
    let whole := half ++ half
    if n % 2 = 1 then whole.push 0 else whole
termination_by n
decreasing_by exact Nat.div_lt_self (by omega) (by omega)

theorem data_zeroBytes (n : Nat) : (zeroBytes n).data = Array.replicate n 0 := by
  induction n using Nat.strongRecOn with
  | _ n ih =>
    unfold zeroBytes
    split
    · subst n; rfl
    · have h := ih (n / 2) (Nat.div_lt_self (by omega) (by omega))
      dsimp only
      split
      · rw [ByteArray.data_push, ByteArray.data_append, h, Array.replicate_append_replicate,
          ← Array.replicate_succ]
        congr 1; omega
      · rw [ByteArray.data_append, h, Array.replicate_append_replicate]
        congr 1; omega

@[simp] theorem size_zeroBytes (n : Nat) : (zeroBytes n).size = n := by
  rw [show (zeroBytes n).size = (zeroBytes n).data.size from rfl, data_zeroBytes]
  exact Array.size_replicate

/-- The array with `n` bytes from `i` on zeroed, or as many as it has. -/
def zeroRun (b : ByteArray) (i n : Nat) : ByteArray :=
  let m := min n (b.size - i)
  (zeroBytes m).copySlice 0 b i m

theorem data_zeroRun (b : ByteArray) (i n : Nat) :
    (zeroRun b i n).data = b.data.extract 0 i ++ Array.replicate (min n (b.size - i)) 0
      ++ b.data.extract (i + min n (b.size - i)) b.size := by
  have h : (zeroBytes (min n (b.size - i))).data.size = min n (b.size - i) := by
    rw [data_zeroBytes]; exact Array.size_replicate
  have hall : (zeroBytes (min n (b.size - i))).data.extract 0 (min n (b.size - i))
      = (zeroBytes (min n (b.size - i))).data := Array.extract_eq_self_of_le (Nat.le_of_eq h)
  unfold zeroRun ByteArray.copySlice
  dsimp only
  rw [h, Nat.sub_zero, Nat.min_self, Nat.zero_add, hall, data_zeroBytes]
  rfl

@[simp] theorem size_zeroRun (b : ByteArray) (i n : Nat) : (zeroRun b i n).size = b.size := by
  rw [show (zeroRun b i n).size = (zeroRun b i n).data.size from rfl, data_zeroRun]
  rw [Array.size_append, Array.size_append, Array.size_extract, Array.size_extract,
    Array.size_replicate]
  have : b.data.size = b.size := rfl
  omega

end HighHalf
