import HighHalf.Address.Phys
import HighHalf.Descriptor.Flags

/-!
# Table entries

An entry is one 64-bit descriptor. It is empty, points to a table of the next level, or maps a
page. A table descriptor carries the kind bits and an address and nothing that means something
in a leaf; a leaf carries the access flag. So no word is both.
-/

namespace HighHalf

/-- One descriptor of a table. -/
structure Entry where
  raw : Word
deriving DecidableEq, Repr, Inhabited

namespace Entry

/-- The address bits of a descriptor, 12 to 47. -/
def addressMask : Word := 0x0000FFFFFFFFF000

/-- The empty entry. -/
def empty : Entry := ⟨0⟩

/-- The descriptor that links the table at `next`. -/
def table (next : PhysAddr) : Except Fatal Entry :=
  if next.aligned then .ok ⟨(next.val &&& addressMask) ||| Flags.page.bits⟩
  else .error .tableMisaligned

/-- The descriptor that maps the frame at `p` with the flag word `f`. -/
def leaf (p : PhysAddr) (f : Flags) : Except Fatal Entry :=
  if !p.aligned then .error .pageMisaligned
  else if !f.isLeaf then .error .pageFlagsIncomplete
  else if f.bits &&& addressMask ≠ 0 then .error .pageFlagsHoldAddress
  else .ok ⟨(p.val &&& addressMask) ||| f.bits⟩

/-- Whether the entry is valid. -/
def isValid (e : Entry) : Bool := e.raw &&& Flags.valid.bits ≠ 0

/-- Whether the entry is a well-formed table descriptor: kind bits set and no leaf bit. -/
def isTable (e : Entry) : Bool :=
  e.raw &&& Flags.page.bits = Flags.page.bits && e.raw &&& Flags.leafOnly.bits = 0

/-- The physical address in the entry. -/
def addr (e : Entry) : PhysAddr := ⟨e.raw &&& addressMask⟩

/-- All bits of the entry but the address. -/
def flags (e : Entry) : Flags := ⟨e.raw &&& ~~~addressMask⟩

/-- Whether the entry is a leaf. -/
def isLeaf (e : Entry) : Bool := e.flags.isLeaf

/-- The text that shows address and flag word. -/
def debug (e : Entry) : String :=
  if e.isValid then s!"PTE(addr={e.addr}, flags={e.flags.debug})" else "PTE(invalid)"

/-- Access permissions of a flag word. -/
private def accessName (f : Flags) : String :=
  match f.contains .readOnly, f.contains .userAccess with
  | false, false => "RW_EL1"
  | false, true => "RW_ALL"
  | true, false => "RO_EL1"
  | true, true => "RO_ALL"

/-- Shareability of a flag word. -/
private def shareName (f : Flags) : String :=
  if f.contains .shareInner then "inner" else if f.contains .shareOuter then "outer" else "non"

/-- The attributes that are named only when they are set, in their order. -/
private def marks : List (Flags × String) :=
  [(.accessed, " AF"), (.notGlobal, " nG"), (.kernelNoExec, " PXN"), (.userNoExec, " UXN")]

/-- The entry decoded for a reader. -/
def describe (e : Entry) : String :=
  if !e.isValid then "invalid"
  else if e.isTable then s!"table -> {e.addr}"
  else
    let f := e.flags
    let memory := f.memoryType.shortName
    let access := accessName f
    let share := shareName f
    let set := String.join ((marks.filter fun m => f.contains m.1).map (·.2))
    s!"page -> {e.addr} {memory} AP={access} SH={share}{set}"

end Entry

end HighHalf
