/-!
# Rings

A ring remembers the last few of the values pushed into it. It has a fixed number of slots; a
push overwrites the oldest. Reading goes backwards from the newest and ends at the first slot
that was never filled.
-/

namespace HighHalf

/-- A ring of `n` slots; `head` is the slot that the next push fills. -/
structure Ring (α : Type) (n : Nat) where
  slots : Vector (Option α) n
  head : Nat
deriving DecidableEq

namespace Ring

variable {α : Type} {n : Nat}

/-- The ring into which nothing has been pushed. -/
def empty : Ring α n := ⟨Vector.replicate n none, 0⟩

instance : Inhabited (Ring α n) := ⟨empty⟩

/-- Remember `a`. -/
def push (r : Ring α n) (a : α) : Ring α n where
  slots := r.slots.setIfInBounds r.head (some a)
  head := (r.head + 1) % n

/-- What the slot `back` places behind the next one holds. -/
def behind (r : Ring α n) (back : Nat) : Option α := r.slots[(r.head + n - back) % n]?.join

/-- The values up to the first hole. -/
def untilHole : List (Option α) → List α
  | some a :: rest => a :: untilHole rest
  | none :: _ => []
  | [] => []

/-- The remembered values, newest first. -/
def toList (r : Ring α n) : List α := untilHole ((List.range n).map fun i => r.behind (i + 1))

@[simp] theorem toList_empty : (empty : Ring α n).toList = [] := by
  cases n with
  | zero => rfl
  | succ n =>
    simp [toList, List.range_succ_eq_map, behind, empty, untilHole]

end Ring

end HighHalf
