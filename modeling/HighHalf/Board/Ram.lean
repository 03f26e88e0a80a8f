import HighHalf.Address.Range
import HighHalf.Address.Window
import HighHalf.Board.Bytes

/-!
# RAM

A bank of RAM has a physical base and is reached by the processor at one or two places: from
`home`, and again `gap` bytes higher. Both places show the same bytes. A read that reaches no
byte of the bank gives zero, and such a write is lost.

## Main definitions

* `Ram.byte`, `Ram.setByte`: one byte, by the address at which it is reached
* `Ram.word`, `Ram.setWord`: eight bytes, least significant first
* `Ram.clear`: a run of zero bytes
-/

namespace HighHalf

/-! ## The bank -/

/-- A bank of RAM and the places where the processor reaches it. -/
structure Ram where
  /-- Physical address of the first byte. -/
  base : PhysAddr
  /-- The contents. -/
  bytes : ByteArray
  /-- Where the first byte is reached. -/
  home : Word
  /-- How much higher the second place is; 0 if there is none. -/
  gap : Word

namespace Ram

/-- A bank of `pages` zeroed pages. -/
def zeroed (base : PhysAddr) (pages : Nat) (home gap : Word) : Ram where
  base := base
  bytes := zeroBytes (4096 * pages)
  home := home
  gap := gap

/-- Number of bytes. -/
def size (r : Ram) : Nat := r.bytes.size

/-- The physical address just past the bank. -/
def top (r : Ram) : Nat := r.base.val.toNat + r.size

/-- Whether the `n` bytes at `p` lie in the bank. -/
def holds (r : Ram) (p : PhysAddr) (n : Nat) : Bool :=
  r.base.val.toNat ≤ p.val.toNat && p.val.toNat + n ≤ r.top

/-- The physical addresses of the bank. -/
def range (r : Ram) : PhysRange := ⟨r.base, ⟨r.base.val + UInt64.ofNat r.size⟩⟩

/-- The window through which the bank is reached at its first place. -/
def window (r : Ram) : Window := ⟨r.home - r.base.val⟩

/-- Which byte of the bank is reached at `a`; `size` or more if none is. -/
def offset (r : Ram) (a : Word) : Nat :=
  let i := (a - r.home).toNat
  if i < r.bytes.size then i else (a - r.home - r.gap).toNat

/-- The byte reached at `a`. -/
def byte (r : Ram) (a : Word) : UInt8 := byteAt r.bytes (r.offset a)

/-- Make `v` the byte reached at `a`. -/
def setByte (r : Ram) (a : Word) (v : UInt8) : Ram :=
  let i := r.offset a
  { r with bytes := putByte r.bytes i v }

/-- The number in the `n` bytes reached from `a` on, least significant byte first. -/
def little (r : Ram) (a : Word) : Nat → Word
  | 0 => 0
  | n + 1 => (r.byte a).toUInt64 ||| (r.little (a + 1) n <<< 8)

/-- Put the low `n` bytes of `v` at `a` and on, least significant byte first. -/
def setLittle (r : Ram) (a : Word) : Nat → Word → Ram
  | 0, _ => r
  | n + 1, v => (r.setByte a v.toUInt8).setLittle (a + 1) n (v >>> 8)

/-- The word reached at `a`. -/
def word (r : Ram) (a : Word) : Word := r.little a 8

/-- Make `v` the word reached at `a`. -/
def setWord (r : Ram) (a : Word) (v : Word) : Ram := r.setLittle a 8 v

/-- Zero `n` bytes from the one reached at `a` on, or as many as the bank still has. -/
def clear (r : Ram) (a : Word) (n : Nat) : Ram :=
  let i := r.offset a
  { r with bytes := zeroRun r.bytes i n }

@[simp] theorem size_setByte (r : Ram) (a : Word) (v : UInt8) :
    (r.setByte a v).size = r.size := size_putByte ..

@[simp] theorem size_clear (r : Ram) (a : Word) (n : Nat) :
    (r.clear a n).size = r.size := size_zeroRun ..

/-- The places of a bank hang on its size and on where it is reached, not on its contents. -/
theorem offset_congr {r s : Ram} (hsize : r.size = s.size) (hhome : r.home = s.home)
    (hgap : r.gap = s.gap) (a : Word) : r.offset a = s.offset a := by
  unfold size at hsize
  simp only [offset, hsize, hhome, hgap]

@[simp] theorem offset_setByte (r : Ram) (a : Word) (v : UInt8) (b : Word) :
    (r.setByte a v).offset b = r.offset b :=
  offset_congr (r.size_setByte a v) rfl rfl b

end Ram

end HighHalf
