import HighHalf.Address.Range

/-!
# The platform

What the memory subsystem is told about its board and about the image it runs from: the width
of virtual addresses, the managed RAM, the serial device, and where the sections of the loaded
image lie.
-/

namespace HighHalf

/-- Width of the virtual addresses in each half. -/
inductive VaWidth where
  /-- 39 bits: three-level walks. -/
  | bits39
  /-- 48 bits: four-level walks. -/
  | bits48
deriving DecidableEq, Repr, Inhabited

namespace VaWidth

/-- Number of bits. -/
def bits : VaWidth → Nat
  | bits39 => 39
  | bits48 => 48

/-- The width of a number of bits. -/
def ofBits? : Nat → Option VaWidth
  | 39 => some bits39
  | 48 => some bits48
  | _ => none

/-- What the size fields of the control register hold: the bits that are not resolved. -/
def unresolved (w : VaWidth) : Word := 64 - UInt64.ofNat w.bits

/-- Where the high aliases begin. -/
def highBase : VaWidth → Word
  | bits39 => 0xFFFFFFC000000000
  | bits48 => HighHalf.highBase

end VaWidth

/-- The board as far as memory is concerned. -/
structure MemoryConfig where
  /-- RAM that the frame store manages. -/
  memory : PhysRange
  /-- Base of the serial device. -/
  uart : PhysAddr
  /-- Width of virtual addresses. -/
  width : VaWidth
  /-- Frames parked for tables before anything is mapped. The kernel has a word for it. No more than
  `parkLimit` are ever parked and nothing is added to it, so it has no bound here. -/
  tableReserve : Nat
deriving DecidableEq, Repr, Inhabited

namespace MemoryConfig

/-- Where the high aliases begin. -/
def highBase (c : MemoryConfig) : Word := c.width.highBase

/-- Base of the serial device on the reference board. -/
def uartBase : Word := 0x09000000

/-- First byte of RAM on the reference board. -/
def memoryStart : Word := 0x40000000

/-- End of RAM on the reference board. -/
def memoryEnd : Word := 0x48000000

/-- Where the image is loaded on the reference board. -/
def loadBase : Word := 0x40080000

/-- The reference board: 128 MiB of RAM and 48-bit addresses. -/
def reference : MemoryConfig where
  memory := .ofWords memoryStart memoryEnd
  uart := ⟨uartBase⟩
  width := .bits48
  tableReserve := 96

end MemoryConfig

/-- Where the parts of the loaded image lie. -/
structure ImageLayout where
  /-- The whole image, boot stack included. -/
  image : PhysRange
  text : PhysRange
  rodata : PhysRange
  /-- Initialised and zeroed data. -/
  data : PhysRange
  /-- The stack in use during the move. -/
  stack : PhysRange
  /-- The exception vectors. -/
  vectors : PhysAddr
  /-- The page whose code runs first on the high alias. -/
  continuation : PhysAddr
  /-- The relocation records. -/
  relocations : PhysRange
deriving DecidableEq, Repr, Inhabited

end HighHalf
