import HighHalf.Address.Phys

/-!
# The window onto physical memory

The kernel touches physical memory through a window: the byte at `p` is reached `offset` bytes
higher, round the end of the word. With address resolution off the offset is zero; once the
kernel lives in the high half the window is shifted along with it.
-/

namespace HighHalf

/-- The displacement at which the kernel reaches physical memory. -/
structure Window where
  offset : Word
deriving DecidableEq, Repr, Inhabited

namespace Window

/-- Every physical address is reached at its own number. -/
def identity : Window := ⟨0⟩

/-- The window `d` bytes higher. -/
def shifted (w : Window) (d : Word) : Window := ⟨w.offset + d⟩

/-- Where the byte at `p` is reached. -/
def reach (w : Window) (p : PhysAddr) : Word := p.val + w.offset

/-- The text shown for a window. -/
def debug (w : Window) : String := s!"PhysWindow(+{w.offset.hex})"

@[simp] theorem reach_identity (p : PhysAddr) : identity.reach p = p.val := by
  simp [identity, reach]

theorem reach_shifted (w : Window) (d : Word) (p : PhysAddr) :
    (w.shifted d).reach p = w.reach p + d := by
  simp [shifted, reach, UInt64.add_assoc]

end Window

end HighHalf
