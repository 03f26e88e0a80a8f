import HighHalf.Word

/-!
# Descriptor bits

The attribute bits of a stage 1 descriptor, the flag words the kernel uses, and the memory
types that the attribute index selects.

## Main definitions

* `Flags.page`, `Flags.leafOnly`: the kind bits, and the bits only a leaf may carry
* `Flags.text`, `Flags.rodata`, `Flags.data`, `Flags.device`: complete leaf flag words
* `MemoryType`: what the attribute index means, and its byte in the attribute register
-/

namespace HighHalf

/-- A set of descriptor bits. -/
structure Flags where
  bits : Word
deriving DecidableEq, Repr, Inhabited

/-- The memory types that the attribute index of a leaf selects. -/
inductive MemoryType where
  /-- Index 0: strongly ordered device memory. -/
  | deviceStrong
  /-- Index 1: normal memory, write-back. -/
  | writeBack
  /-- Index 2: normal memory, not cached. -/
  | uncached
  /-- Index 3: device memory with early write acknowledgement. -/
  | deviceEarly
  /-- Indices 4 to 7 are not programmed. -/
  | unprogrammed
deriving DecidableEq, Repr, Inhabited

namespace Flags

/-- The union of two sets. -/
def union (a b : Flags) : Flags := ⟨a.bits ||| b.bits⟩

instance : OrOp Flags := ⟨union⟩

/-- Whether every bit of `b` is in `a`. -/
def contains (a b : Flags) : Bool := a.bits &&& b.bits = b.bits

/-! ## Single fields -/

/-- `value` in the field that begins at bit `position`. -/
def field (value position : Word) : Flags := ⟨Word.field value position⟩

/-- The descriptor is valid. -/
def valid : Flags := field 1 0
/-- Table at levels 0 to 2, page at level 3. -/
def kind : Flags := field 1 1
/-- Attribute index 1. -/
def attrNormal : Flags := field 1 2
/-- Attribute index 2. -/
def attrUncached : Flags := field 2 2
/-- Attribute index 3. -/
def attrDevice : Flags := field 3 2
/-- The whole attribute index. -/
def attrMask : Flags := field 7 2
/-- Non-secure. -/
def nonSecure : Flags := field 1 5
/-- Access allowed at the lowest exception level. -/
def userAccess : Flags := field 1 6
/-- Read-only. -/
def readOnly : Flags := field 1 7
/-- Outer shareable. -/
def shareOuter : Flags := field 2 8
/-- Inner shareable. -/
def shareInner : Flags := field 3 8
/-- Access flag: without it the first access faults. -/
def accessed : Flags := field 1 10
/-- Not global. -/
def notGlobal : Flags := field 1 11
/-- Contiguous hint. -/
def contiguous : Flags := field 1 52
/-- Not executable by the kernel. -/
def kernelNoExec : Flags := field 1 53
/-- Not executable by user code. -/
def userNoExec : Flags := field 1 54

/-! ## Combinations -/

/-- The kind bits of a table descriptor at levels 0 to 2 and of a page at level 3. -/
def page : Flags := valid ||| kind

/-- The bits that mean something in a leaf only. -/
def leafOnly : Flags :=
  attrMask ||| nonSecure ||| userAccess ||| readOnly ||| shareInner ||| accessed ||| notGlobal
    ||| contiguous ||| kernelNoExec ||| userNoExec

/-- Kernel code: read-only, executable by the kernel alone. -/
def text : Flags := page ||| accessed ||| shareInner ||| attrNormal ||| readOnly ||| userNoExec

/-- Kernel constants: read-only, not executable. -/
def rodata : Flags :=
  page ||| accessed ||| shareInner ||| attrNormal ||| readOnly ||| kernelNoExec ||| userNoExec

/-- Kernel data, stacks and tables: writable, not executable. -/
def data : Flags := page ||| accessed ||| shareInner ||| attrNormal ||| kernelNoExec ||| userNoExec

/-- Device registers: device memory, never executable. -/
def device : Flags := page ||| accessed ||| attrDevice ||| kernelNoExec ||| userNoExec

/-! ## Questions about a flag word -/

/-- Whether the word is a complete leaf: kind bits and access flag. -/
def isLeaf (f : Flags) : Bool := f.contains page && f.contains accessed

/-- Whether the kernel may write. -/
def writable (f : Flags) : Bool := !f.contains readOnly

/-- Whether the kernel may execute. -/
def executable (f : Flags) : Bool := !f.contains kernelNoExec

/-- The text that also names the kind of word. -/
def debug (f : Flags) : String := s!"PageFlags({f.bits.hex16})"

end Flags

namespace MemoryType

/-- The memory types with a slot in the attribute register, in the order of their slots. -/
def programmed : List MemoryType := [deviceStrong, writeBack, uncached, deviceEarly]

/-- The memory type of an attribute index. -/
def ofIndex : Nat → MemoryType
  | 0 => deviceStrong
  | 1 => writeBack
  | 2 => uncached
  | 3 => deviceEarly
  | _ => unprogrammed

/-- The attribute index of a memory type, all ones for the type without a slot. -/
def index : MemoryType → Word
  | deviceStrong => 0
  | writeBack => 1
  | uncached => 2
  | deviceEarly => 3
  | unprogrammed => 7

/-- The byte of the attribute register that describes the memory type. -/
def encoding : MemoryType → Word
  | deviceStrong => 0x00
  | writeBack => 0xFF
  | uncached => 0x44
  | deviceEarly => 0x04
  | unprogrammed => 0x00

/-- The attribute index as descriptor bits. -/
def flags (t : MemoryType) : Flags := .field t.index 2

/-- Whether the type is device memory. -/
def isDevice : MemoryType → Bool
  | deviceStrong | deviceEarly => true
  | writeBack | uncached | unprogrammed => false

/-- The short name shown in descriptions. -/
def shortName : MemoryType → String
  | deviceStrong => "dev-nGnRnE"
  | writeBack => "normal-wb"
  | uncached => "normal-nc"
  | deviceEarly => "dev-nGnRE"
  | unprogrammed => "unprogrammed"

end MemoryType

/-- The memory type that a flag word selects. -/
def Flags.memoryType (f : Flags) : MemoryType := .ofIndex ((f.bits >>> 2) &&& 7).toNat

theorem MemoryType.memoryType_flags (t : MemoryType) : t.flags.memoryType = t := by
  cases t <;> decide

end HighHalf
