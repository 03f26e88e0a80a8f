import HighHalf.Board.Basic

/-!
# Pointers inside the image

The image stores absolute addresses of itself. Its relocation table names every such slot
together with the address the slot holds where the image was linked. Once execution has moved
to another alias the slots are written again for that alias; a table is accepted for this only
if every record is a relative one and its slot is an aligned word inside writable data.

While a table is applied its records are lent to the loop that goes through them, and lent memory
must not change. That the slots lie inside the data does not see to that where the table lies
inside the data, too. So applying a table has a meaning only if no slot shares a byte with the
records, and a run in which one does ends there.

## Main definitions

* `Relocations.validate`: whether a table can be applied again
* `Relocations.rebase`: apply it for a displacement
-/

namespace HighHalf

/-- One relocation record. -/
structure Reloc where
  offset : Word
  info : Word
  addend : Word
deriving DecidableEq, Repr, Inhabited

namespace Reloc

/-- Bytes in a record. -/
def size : Nat := 24

/-- The record kind for a slot that holds the load base plus the addend. -/
def relativeKind : Word := 1027

/-- The relative record that puts `target` into `slot`. -/
def relative (slot : PhysAddr) (target : Word) : Reloc := ⟨slot.val, relativeKind, target⟩

/-- The kind: the low half of the information word. -/
def kind (r : Reloc) : Word := r.info &&& 0xFFFFFFFF

/-- Where the pointer is stored. -/
def slot (r : Reloc) : PhysAddr := ⟨r.offset⟩

/-- The address that the slot holds where the image was linked. -/
def target (r : Reloc) : Word := r.addend

theorem kind_relative (slot : PhysAddr) (target : Word) :
    (relative slot target).kind = relativeKind :=
  show relativeKind &&& 0xFFFFFFFF = relativeKind by decide

end Reloc

/-- Why a relocation table cannot be applied again. -/
inductive RelocError where
  /-- The table is not a whole number of records, or does not begin at a word. -/
  | malformed (size : Word)
  /-- A record of another kind than the relative one. -/
  | unsupported (slot : PhysAddr) (kind : Word)
  /-- The slot is not aligned, or not inside writable data. -/
  | badSlot (slot : PhysAddr)
deriving DecidableEq, Repr, Inhabited

namespace RelocError

/-- The text shown for a failure. -/
def message : RelocError → String
  | malformed size => s!"relocation table of {size} bytes is not whole records"
  | unsupported slot kind => s!"relocation type {kind} at {slot} not supported"
  | badSlot slot => s!"relocation slot {slot} outside writable data"

instance : ToString RelocError := ⟨message⟩

end RelocError

/-- A relocation table, by the range it occupies. -/
structure Relocations where
  table : PhysRange
deriving DecidableEq, Repr, Inhabited

namespace Relocations

/-- Number of whole records. -/
def count (t : Relocations) : Nat := t.table.size.toNat / Reloc.size

/-- Record `i`, read through the window. -/
def record (r : Ram) (w : Window) (t : Relocations) (i : Nat) : Reloc :=
  let a := w.reach t.table.start + UInt64.ofNat (Reloc.size * i)
  ⟨r.word a, r.word (a + 8), r.word (a + 16)⟩

/-- Whether the eight bytes of `slot` lie inside `data`. -/
def slotInside (data : PhysRange) (slot : PhysAddr) : Bool :=
  match slot.val.add? 8 with
  | some stop => data.contains slot && stop ≤ data.stop.val
  | none => false

/-- What is wrong with a record, if anything is. -/
def fault? (data : PhysRange) (r : Reloc) : Option RelocError :=
  if r.kind ≠ Reloc.relativeKind then some (.unsupported r.slot r.kind)
  else if r.slot.val % 8 ≠ 0 || !slotInside data r.slot then some (.badSlot r.slot)
  else none

/-- What is wrong with the first bad one of records `i` and on, of which `n` are left. -/
def firstFault? (r : Ram) (w : Window) (data : PhysRange) (t : Relocations) (i : Nat) :
    Nat → Option RelocError
  | 0 => none
  | n + 1 =>
    match fault? data (t.record r w i) with
    | some e => some e
    | none => firstFault? r w data t (i + 1) n

/-- Check that every record can be applied again. Gives the number of records. -/
def validate (r : Ram) (w : Window) (data : PhysRange) (t : Relocations) :
    Except RelocError Nat :=
  if t.table.size % 24 ≠ 0 || t.table.start.val % 8 ≠ 0 then .error (.malformed t.table.size)
  else
    match firstFault? r w data t 0 t.count with
    | some e => .error e
    | none => .ok t.count

/-- Whether the records lie in RAM, if there are any. -/
def within (t : Relocations) (r : Ram) : Bool :=
  t.count = 0 || r.holds t.table.start (Reloc.size * t.count)

/-- Whether the word at `slot` shares a byte with the records. -/
def meets (t : Relocations) (slot : PhysAddr) : Bool :=
  t.table.start.val.toNat < slot.val.toNat + 8
    && slot.val.toNat < t.table.start.val.toNat + Reloc.size * t.count

/-- Apply records `i` and on, of which `n` are left, for the alias `d` bytes up. The records are
lent: a slot among them must not be written. -/
def rebaseFrom (w : Window) (t : Relocations) (d : Word) (i : Nat) : Nat → BoardM Unit
  | 0 => return ()
  | n + 1 => do
    let reloc := t.record (← get).ram w i
    if t.meets reloc.slot then throw (.undefined (.recordOverwritten reloc.offset))
    Board.store (.word (w.reach reloc.slot) (reloc.target ||| d))
    rebaseFrom w t d (i + 1) n

/-- Apply every record for the alias `d` bytes up. Gives the number of slots written. RAM is the
only memory at that alias, so the records have to lie in it. -/
def rebase (w : Window) (t : Relocations) (d : Word) : BoardM Nat := do
  if !t.within (← get).ram then throw (.undefined (.recordsOutsideRam t.table.start.val))
  rebaseFrom w t d 0 t.count
  let shown := d.hex
  Board.note .debug .relocation s!"{t.count} image pointers rebased by {shown}"
  return t.count

end Relocations

end HighHalf
