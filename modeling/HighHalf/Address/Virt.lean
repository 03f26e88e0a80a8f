import HighHalf.Word

/-!
# Virtual addresses

A virtual address in canonical form is sign-extended from bit 47: the bits above it repeat it.
The page number splits into four table slots of nine bits, one for each level of the walk.

## Main definitions

* `VirtAddr.ofWord` puts a word into canonical form
* `VirtAddr.slot` is the index into the table of a level, level 0 being the root
-/

namespace HighHalf

/-- Bytes in a page. -/
def pageSize : Word := 4096

/-- The bits of an address below its page. -/
def pageMask : Word := 4095

/-- Position of the page number in an address. -/
def pageShift : Word := 12

/-- Entries in a table of any level. -/
def tableEntries : Nat := 512

/-- Where the high aliases of a 48-bit address space begin. -/
def highBase : Word := 0xFFFF800000000000

/-- The lowest address that is walked from the high root. -/
def highHalfStart : Word := 0xFFFF000000000000

/-- A virtual address. -/
structure VirtAddr where
  val : Word
deriving DecidableEq, Repr, Inhabited

namespace VirtAddr

/-- Canonical form: bits 48 to 63 become copies of bit 47. -/
def ofWord (w : Word) : VirtAddr :=
  if (w >>> 47) &&& 1 = 1 then ⟨w ||| 0xFFFF000000000000⟩ else ⟨w &&& 0x0000FFFFFFFFFFFF⟩

/-- Whether the address is the first byte of a page. -/
def aligned (v : VirtAddr) : Bool := v.val &&& pageMask = 0

/-- First byte of the page that holds the address. -/
def floor (v : VirtAddr) : VirtAddr := ofWord (v.val &&& ~~~pageMask)

/-- Place of the address inside its page. -/
def inPage (v : VirtAddr) : Word := v.val &&& pageMask

/-- Move up by `n` bytes, round the end of the word if need be. -/
def add (v : VirtAddr) (n : Word) : VirtAddr := ofWord (v.val + n)

/-- Page number; only its low 36 bits reach a table. -/
def page (v : VirtAddr) : Nat := (v.val >>> pageShift).toNat

/-- Index into the table of level `level` (0 is the root, 3 the leaf table). -/
def slot (v : VirtAddr) (level : Nat) : Nat := v.page / Nat.pow 512 (3 - level) % 512

/-- Whether the address is walked from the high root. -/
def high (v : VirtAddr) : Bool := highHalfStart ≤ v.val

/-- Whether the address is walked from the low root. -/
def low (v : VirtAddr) : Bool := v.val < highHalfStart

/-- The text shown for an address. -/
def text (v : VirtAddr) : String := v.val.hex16

instance : ToString VirtAddr := ⟨text⟩

/-- The text that also names the kind of address. -/
def debug (v : VirtAddr) : String := s!"VirtAddr({v.val.hex16})"

theorem slot_lt (v : VirtAddr) (level : Nat) : v.slot level < 512 :=
  Nat.mod_lt _ (by decide)

theorem low_eq_not_high (v : VirtAddr) : v.low = !v.high := by
  simp only [low, high, UInt64.lt_iff_toNat_lt, UInt64.le_iff_toNat_le, ← decide_not]
  congr 1
  simp

end VirtAddr

end HighHalf
