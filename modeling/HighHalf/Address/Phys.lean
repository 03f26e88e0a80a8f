import HighHalf.Address.Virt
import HighHalf.Fatal

/-!
# Physical addresses

A physical address names a byte of memory or of a device. Sums that leave 64 bits are fatal;
rounding up is such a sum.
-/

namespace HighHalf

/-- A physical address. -/
structure PhysAddr where
  val : Word
deriving DecidableEq, Repr, Inhabited

namespace PhysAddr

/-- An address of at most 48 bits; a wider one is fatal. -/
def ofWord (w : Word) : Except Fatal PhysAddr :=
  if w ≤ 0x0000FFFFFFFFFFFF then .ok ⟨w⟩ else .error .addressTooWide

/-- Whether the address is the first byte of a page. -/
def aligned (p : PhysAddr) : Bool := p.val &&& pageMask = 0

/-- First byte of the page that holds the address. -/
def floor (p : PhysAddr) : PhysAddr := ⟨p.val &&& ~~~pageMask⟩

/-- The address itself if it begins a page, else the first byte of the next page. -/
def ceil (p : PhysAddr) : Except Fatal PhysAddr :=
  return ⟨(← Word.add p.val pageMask) &&& ~~~pageMask⟩

/-- Page frame number. -/
def frame (p : PhysAddr) : Word := p.val >>> pageShift

/-- First byte of the frame of a number. -/
def ofFrame (n : Word) : PhysAddr := ⟨n <<< pageShift⟩

/-- Move up by `n` bytes. -/
def add (p : PhysAddr) (n : Word) : Except Fatal PhysAddr :=
  return ⟨← Word.add p.val n⟩

/-- Bytes from `base` up to `p`. -/
def since (p base : PhysAddr) : Except Fatal Word := Word.sub p.val base.val

/-- The virtual address of the same number. -/
def identity (p : PhysAddr) : VirtAddr := VirtAddr.ofWord p.val

/-- The virtual address at which the high half shows the same byte. -/
def highAlias (p : PhysAddr) (base : Word) : VirtAddr := VirtAddr.ofWord (p.val ||| base)

/-- The text shown for an address. -/
def text (p : PhysAddr) : String := p.val.hex16

instance : ToString PhysAddr := ⟨text⟩

/-- The text that also names the kind of address. -/
def debug (p : PhysAddr) : String := s!"PhysAddr({p.val.hex16})"

end PhysAddr

end HighHalf
