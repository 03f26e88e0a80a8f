import HighHalf.Address.Phys

/-!
# Ranges of physical addresses

A range is half open: it holds `start` and ends before `stop`. Nothing forces `start ≤ stop`;
a range that runs backwards is empty.

## Main definitions

* `PhysRange.widened` reaches outwards to whole pages
* `PhysRange.steps` and `PhysRange.step` enumerate the page starts of a range from below
-/

namespace HighHalf

/-- The addresses from `start` up to, not including, `stop`. -/
structure PhysRange where
  start : PhysAddr
  stop : PhysAddr
deriving DecidableEq, Repr, Inhabited

namespace PhysRange

/-- The range between two words. -/
def ofWords (start stop : Word) : PhysRange := ⟨⟨start⟩, ⟨stop⟩⟩

/-- The page that holds `p`. -/
def pageOf (p : PhysAddr) : Except Fatal PhysRange :=
  return ⟨p.floor, ← p.floor.add pageSize⟩

/-- The smallest range of whole pages around `r`. -/
def widened (r : PhysRange) : Except Fatal PhysRange :=
  return ⟨r.start.floor, ← r.stop.ceil⟩

/-- Number of bytes. -/
def size (r : PhysRange) : Word :=
  if r.start.val ≤ r.stop.val then r.stop.val - r.start.val else 0

/-- Whether the range holds no byte. -/
def isEmpty (r : PhysRange) : Bool := r.size = 0

/-- Number of pages, a last partial page counted as one. -/
def pageCount (r : PhysRange) : Except Fatal Word :=
  return (← Word.add r.size pageMask) >>> pageShift

/-- Whether the word `w`, read as an address, lies in the range. -/
def holds (r : PhysRange) (w : Word) : Bool := r.start.val ≤ w && w < r.stop.val

/-- Whether `p` lies in the range. -/
def contains (r : PhysRange) (p : PhysAddr) : Bool := r.holds p.val

/-- How many page-sized steps from `start` stay below `stop`. -/
def steps (r : PhysRange) : Nat := (r.size.toNat + 4095) / 4096

/-- The address after `i` page-sized steps. -/
def step (r : PhysRange) (i : Nat) : PhysAddr := ⟨r.start.val + UInt64.ofNat (4096 * i)⟩

/-- All page-sized steps from `start`, in ascending order. -/
def pages (r : PhysRange) : List PhysAddr := (List.range r.steps).map r.step

/-- The text shown for a range. -/
def debug (r : PhysRange) : String := s!"[{r.start.val.hex}..{r.stop.val.hex})"

theorem size_toNat (r : PhysRange) : r.size.toNat = r.stop.val.toNat - r.start.val.toNat := by
  unfold size
  split
  · rename_i h
    exact UInt64.toNat_sub_of_le _ _ h
  · rename_i h
    rw [UInt64.le_iff_toNat_le] at h
    simp; omega

theorem contains_iff (r : PhysRange) (p : PhysAddr) :
    r.contains p = true ↔ r.start.val.toNat ≤ p.val.toNat ∧ p.val.toNat < r.stop.val.toNat := by
  simp [contains, holds, UInt64.le_iff_toNat_le, UInt64.lt_iff_toNat_lt]

theorem length_pages (r : PhysRange) : r.pages.length = r.steps := by simp [pages]

end PhysRange

end HighHalf
