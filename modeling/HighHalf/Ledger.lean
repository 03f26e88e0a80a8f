import HighHalf.Address.Phys
import HighHalf.Board.Basic
import HighHalf.Descriptor.Flags

/-!
# The ledger of mappings

The ledger keeps what was mapped, in the order it was mapped, up to a fixed number of records;
what does not fit is counted. Addresses are never resolved through it: it tells a reader what a
mapping was made for, and which mappings disagree.

## Main definitions

* `Ledger.find`: the newest record that covers an address
* `Ledger.conflicts`: how many pairs of records show different frames at a shared address
-/

namespace HighHalf

/-- Most records a ledger keeps. -/
def ledgerLimit : Nat := 32

/-- A recorded mapping of `start` up to `stop` to frames from `phys` on. -/
structure Mapping where
  name : String
  start : VirtAddr
  stop : VirtAddr
  phys : PhysAddr
  flags : Flags
deriving DecidableEq, Repr, Inhabited

namespace Mapping

/-- Whether the mapping covers `v`. -/
def covers (m : Mapping) (v : VirtAddr) : Bool := m.start.val ≤ v.val && v.val < m.stop.val

/-- The physical address that the mapping gives to `v`. -/
def physFor (m : Mapping) (v : VirtAddr) : Except Fatal PhysAddr := do
  m.phys.add (← Word.sub v.val m.start.val)

/-- The lowest address that both mappings cover. -/
def shared? (a b : Mapping) : Option VirtAddr :=
  let start := if a.start.val ≤ b.start.val then b.start else a.start
  let stop := if a.stop.val ≤ b.stop.val then a.stop else b.stop
  if start.val < stop.val then some start else none

end Mapping

/-- The recorded mappings, oldest first, and how many did not fit. -/
structure Ledger where
  records : Array Mapping := #[]
  /-- The kernel counts in a word, which no run of one more at a time is long enough to fill. -/
  dropped : Nat := 0
deriving DecidableEq, Repr, Inhabited

namespace Ledger

/-- Keep a record, or count it if the ledger is full. Gives whether it was kept. -/
def record (l : Ledger) (m : Mapping) : BoardM (Ledger × Bool) :=
  if l.records.size = ledgerLimit then do
    Board.note .warn .ledger s!"audit trail full, dropping '{m.name}' at {m.start}"
    return ({ l with dropped := l.dropped + 1 }, false)
  else
    return ({ l with records := l.records.push m }, true)

/-- The newest record that covers `v`. -/
def find (l : Ledger) (v : VirtAddr) : Option Mapping :=
  l.records.toList.reverse.find? (·.covers v)

/-- Whether two mappings show different frames at the first address they share; a disagreement
is logged. -/
def disagree (a b : Mapping) : BoardM Bool :=
  match a.shared? b with
  | none => return false
  | some v => do
    let p ← a.physFor v
    let q ← b.physFor v
    if p = q then return false
    Board.note .warn .ledger s!"'{a.name}' and '{b.name}' disagree at {v}: {p} vs {q}"
    return true

/-- How many of `later` disagree with `m`. -/
def disagreements (m : Mapping) : List Mapping → BoardM Nat
  | [] => return 0
  | n :: later => do
    let here ← disagree m n
    let rest ← disagreements m later
    return here.toNat + rest

/-- How many pairs of a list disagree. -/
def conflictsIn : List Mapping → BoardM Nat
  | [] => return 0
  | m :: later => do
    let here ← disagreements m later
    let rest ← conflictsIn later
    return here + rest

/-- How many pairs of records disagree. -/
def conflicts (l : Ledger) : BoardM Nat := conflictsIn l.records.toList

/-- Replace every name by its image under `g`. -/
def rename (l : Ledger) (g : String → String) : Ledger :=
  { l with records := l.records.map fun m => { m with name := g m.name } }

/-- A name filled up with blanks to the column of the addresses. -/
def nameColumn (name : String) : String := name.pushn ' ' (14 - name.length)

/-- Log every record. -/
def logAll (l : Ledger) : BoardM Unit := do
  for m in l.records.toList do
    let name := nameColumn m.name
    let flags := m.flags.debug
    Board.note .info .ledger s!"{name} [{m.start}..{m.stop}) -> {m.phys} {flags}"
  if 0 < l.dropped then
    Board.note .warn .ledger s!"{l.dropped} mappings not recorded"

end Ledger

end HighHalf
