/-!
# Phases of the move to the high half

The move passes through a fixed chain of phases. Up to the moment address resolution is turned
on it can be given up, which ends in `bypass`; after that the only way is forward.
-/

namespace HighHalf

/-- How far the move to the high half has come. -/
inductive Phase where
  /-- Nothing has been done. -/
  | start
  /-- Both root tables exist. -/
  | tablesBuilt
  /-- Every region is mapped at both of its aliases. -/
  | dualMapped
  /-- Address resolution is on; vectors and execution are still low. -/
  | enabledLow
  /-- Execution is on the high alias. -/
  | arrived
  /-- The vectors are on the high alias too. -/
  | vectorsMoved
  /-- Only the high half is walked. -/
  | highOnly
  /-- Given up: address resolution stays off for good. -/
  | bypass
deriving DecidableEq, Repr, Inhabited

namespace Phase

/-- All phases, in order. -/
def all : List Phase :=
  [start, tablesBuilt, dualMapped, enabledLow, arrived, vectorsMoved, highOnly, bypass]

/-- The text shown for a phase. -/
def text : Phase → String
  | start => "uninitialized"
  | tablesBuilt => "page-tables-built"
  | dualMapped => "dual-mapped"
  | enabledLow => "enabled-physical-vbar"
  | arrived => "continuation-reached"
  | vectorsMoved => "virtual-vbar-installed"
  | highOnly => "kernel-only"
  | bypass => "bypass"

/-- The phase of a text. -/
def ofText? (s : String) : Option Phase := all.find? fun p => p.text = s

instance : ToString Phase := ⟨text⟩

/-- The only successor on the way to success. -/
def next : Phase → Option Phase
  | start => some tablesBuilt
  | tablesBuilt => some dualMapped
  | dualMapped => some enabledLow
  | enabledLow => some arrived
  | arrived => some vectorsMoved
  | vectorsMoved => some highOnly
  | highOnly => none
  | bypass => none

/-- Whether address resolution has been turned on by the time the phase is reached. -/
def resolving : Phase → Bool
  | enabledLow | arrived | vectorsMoved | highOnly => true
  | start | tablesBuilt | dualMapped | bypass => false

/-- Whether the step `p → q` is allowed: to the successor, or to `bypass` while address
resolution is off. -/
def allows (p q : Phase) : Bool :=
  if q = bypass then !p.resolving && p ≠ bypass else p.next = some q

theorem ofText?_text (p : Phase) : ofText? p.text = some p := by cases p <;> decide

theorem mem_all (p : Phase) : p ∈ all := by cases p <;> decide

/-- Once address resolution is on, an allowed step leaves it on. -/
theorem resolving_of_allows {p q : Phase} (h : p.allows q = true) (hp : p.resolving = true) :
    q.resolving = true := by
  revert h hp; cases p <;> cases q <;> decide

end Phase

end HighHalf
