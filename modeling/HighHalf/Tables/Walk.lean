import HighHalf.Board.Ram
import HighHalf.Descriptor.Entry

/-!
# Reading a table tree

A tree is four levels of tables in RAM below a root. A walk follows the table descriptors of
levels 0 to 2, one slot of the address at each level, and ends at the leaf table. It stops at
the first entry that is no table. Nothing here changes RAM.

## Main definitions

* `Tables.leafTable?`: the leaf table that covers an address
* `Tables.lookup`: the leaf descriptor of an address, the empty one if there is none
* `Tables.resolve`: the physical address that a virtual one stands for
-/

namespace HighHalf

namespace Tables

/-- Where entry `i` of the table at `table` is reached. -/
def entryPlace (w : Window) (table : PhysAddr) (i : Nat) : Word :=
  w.reach table + UInt64.ofNat (8 * i)

/-- Entry `i` of the table at `table`. -/
def entry (r : Ram) (w : Window) (table : PhysAddr) (i : Nat) : Entry :=
  ⟨r.word (entryPlace w table i)⟩

/-- The table `n` levels below `table`, which is a table of level `level`. -/
def descend (r : Ram) (w : Window) (v : VirtAddr) (table : PhysAddr) (level : Nat) :
    Nat → Option PhysAddr
  | 0 => some table
  | n + 1 =>
    let e := entry r w table (v.slot level)
    if e.isTable then descend r w v e.addr (level + 1) n else none

/-- The leaf table that covers `v` below `root`. -/
def leafTable? (r : Ram) (w : Window) (root : PhysAddr) (v : VirtAddr) : Option PhysAddr :=
  descend r w v root 0 3

/-- The descriptor of the leaf for `v`; the empty one if the walk does not get there or finds
an invalid one. -/
def lookup (r : Ram) (w : Window) (root : PhysAddr) (v : VirtAddr) : Entry :=
  match leafTable? r w root v with
  | none => .empty
  | some table =>
    let e := entry r w table (v.slot 3)
    if e.isValid then e else .empty

/-- The physical address that `v` stands for. -/
def resolve (r : Ram) (w : Window) (root : PhysAddr) (v : VirtAddr) : Option PhysAddr :=
  let e := lookup r w root v
  if e.isLeaf then some ⟨e.addr.val + v.inPage⟩ else none

/-- The valid entries of the table at `table` with their indices, in ascending order. -/
def validEntries (r : Ram) (w : Window) (table : PhysAddr) : List (Nat × Entry) :=
  ((List.range tableEntries).map fun i => (i, entry r w table i)).filter fun (_, e) => e.isValid

end Tables

end HighHalf
