import HighHalf.Descriptor.Entry

/-!
# Tables as values

A table is 512 entries. The operations here work on a table held as a value, with the checks
that keep a leaf from being replaced by a table; the tables of a live tree lie in RAM and are
read and written there word by word.
-/

namespace HighHalf

/-- A table of 512 entries. -/
structure Table where
  entries : Vector Entry 512
deriving DecidableEq

namespace Table

/-- The table of empty entries. -/
def empty : Table := ⟨Vector.replicate 512 Entry.empty⟩

instance : Inhabited Table := ⟨empty⟩

/-- The entry at `i`. -/
def get (t : Table) (i : Nat) : Except Fatal Entry :=
  if h : i < 512 then .ok t.entries[i] else .error (.indexOutOfBounds 512 i)

/-- Replace the entry at `i`. -/
def put (t : Table) (i : Nat) (e : Entry) : Except Fatal Table :=
  if h : i < 512 then .ok ⟨t.entries.set i e⟩ else .error (.indexOutOfBounds 512 i)

/-- Link the table at `next` from entry `i`, unless that entry is a leaf. -/
def link (t : Table) (i : Nat) (next : PhysAddr) : Except Fatal Table := do
  if (← t.get i).isLeaf then throw (.tableOverLeaf i)
  t.put i (← Entry.table next)

/-- Map the frame at `p` from entry `i`. -/
def map (t : Table) (i : Nat) (p : PhysAddr) (f : Flags) : Except Fatal Table := do
  unless f.isLeaf do throw (.leafFlagsIncomplete f.bits)
  t.put i (← Entry.leaf p f)

/-- Empty the entry at `i`. -/
def clear (t : Table) (i : Nat) : Except Fatal Table := t.put i .empty

/-- The valid entries with their indices, in ascending order. -/
def valid (t : Table) : List (Nat × Entry) :=
  (t.entries.toList.zipIdx.map fun (e, i) => (i, e)).filter fun (_, e) => e.isValid

theorem get_put_self {t u : Table} {i : Nat} {e : Entry} (h : t.put i e = .ok u) :
    u.get i = .ok e := by
  unfold put at h
  split at h
  · cases h
    rename_i hi
    simp [get, hi]
  · cases h

theorem get_put_of_ne {t u : Table} {i j : Nat} {e : Entry} (h : t.put i e = .ok u)
    (hne : i ≠ j) : u.get j = t.get j := by
  unfold put at h
  split at h
  · cases h
    unfold get
    split
    · rw [Vector.getElem_set_ne _ _ hne]
    · rfl
  · cases h

end Table

end HighHalf
