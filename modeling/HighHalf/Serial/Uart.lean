import HighHalf.Fatal

/-!
# The serial device

The device has a data register and a status register. A byte may be sent when the status says
that the queue is not full; until then the driver reads the status again and again. A carriage
return goes before every line feed.

The line behind the device decides what each read of the status gives. It is any sequence in
which the queue always drains after finitely many reads.

## Main definitions

* `SerialLine`: what the reads of the status register give
* `Uart.send`: send bytes, each after a status that lets it through
-/

namespace HighHalf

/-- The status bit that says that the queue is full. -/
def queueFull : UInt32 := 0x20

/-- What the reads of the status register give, by their number. -/
structure SerialLine where
  status : Nat → UInt32
  /-- After how many more reads than `n` the queue has drained at the latest. -/
  patience : Nat → Nat
  drains : ∀ n, ∃ k, k ≤ patience n ∧ status (n + k) &&& queueFull = 0

/-- A line whose status reads `idle`, with the queue full for `busy` reads before each one that
lets a byte through. -/
def SerialLine.slow (idle : UInt32) (busy : Nat) (h : idle &&& queueFull = 0) : SerialLine where
  status n := if n % (busy + 1) = busy then idle else idle ||| queueFull
  patience _ := busy
  drains n := by
    have hlt : n % (busy + 1) < busy + 1 := Nat.mod_lt _ (by omega)
    refine ⟨busy - n % (busy + 1), by omega, ?_⟩
    have heq : (n + (busy - n % (busy + 1))) % (busy + 1) = busy := by
      rw [← Nat.mod_add_mod]
      rw [show n % (busy + 1) + (busy - n % (busy + 1)) = busy by omega]
      exact Nat.mod_eq_of_lt (by omega)
    rw [if_pos heq]
    exact h

/-- One access to the device. -/
inductive SerialAccess where
  /-- The status register was read at `a` and gave `v`. -/
  | status (a : Word) (v : UInt32)
  /-- `b` was written to the data register at `a`. -/
  | data (a : Word) (b : UInt8)
deriving DecidableEq, Repr

/-- The line with the accesses made so far. -/
structure SerialBus where
  line : SerialLine
  /-- Reads of the status register so far. -/
  reads : Nat := 0
  /-- All accesses, oldest first. -/
  accesses : Array SerialAccess := #[]

namespace SerialBus

/-- The bytes written to the data register, with the addresses they were written at. -/
def sent (b : SerialBus) : List (Word × UInt8) :=
  b.accesses.toList.filterMap fun
    | .data a v => some (a, v)
    | .status _ _ => none

/-- The accesses since the first `n`. -/
def since (b : SerialBus) (n : Nat) : List SerialAccess :=
  (b.accesses.extract n b.accesses.size).toList

/-- The bytes sent since the first `n` accesses, in runs that went to one address. -/
def runsSince (b : SerialBus) (n : Nat) : List (Word × List UInt8) :=
  let add (runs : List (Word × List UInt8)) : SerialAccess → List (Word × List UInt8)
    | .status _ _ => runs
    | .data a v =>
      match runs with
      | (c, vs) :: done => if c = a then (c, v :: vs) :: done else (a, [v]) :: runs
      | [] => [(a, [v])]
  ((b.since n).foldl add []).reverse.map fun (a, vs) => (a, vs.reverse)

/-- How often the status register was read since the first `n` accesses. -/
def statusReadsSince (b : SerialBus) (n : Nat) : Nat :=
  (b.since n).countP fun
    | .status _ _ => true
    | .data _ _ => false

end SerialBus

/-- A step that acts on the serial line. -/
abbrev SerialM := EStateM Fatal SerialBus

/-- The driver of a serial device: where its registers are reached, and whether it may be
driven. -/
structure Uart where
  base : Word
  ready : Bool := false
deriving DecidableEq, Repr, Inhabited

namespace Uart

/-- Place of the data register. -/
def dataOffset : Word := 0x00

/-- Place of the status register. -/
def statusOffset : Word := 0x18

/-- A driver that has not been set up. -/
def fresh (base : Word) : Uart := { base := base }

/-- Set the driver up. -/
def setup (u : Uart) : Uart := { u with ready := true }

/-- Reach the same registers at `base` from now on. -/
def move (u : Uart) (base : Word) : Uart := { u with base := base }

/-- Read the status register at `a`. -/
def readStatus (a : Word) : SerialM UInt32 := fun b =>
  let v := b.line.status b.reads
  .ok v { b with reads := b.reads + 1, accesses := b.accesses.push (.status a v) }

/-- Read the status register at `a` until the queue has room, at most `n` times more than
once. -/
def awaitRoom (a : Word) : Nat → SerialM Unit
  | 0 => do
    let _ ← readStatus a
  | n + 1 => do
    if (← readStatus a) &&& queueFull ≠ 0 then awaitRoom a n

/-- Send one byte through the device at `base`. A driver that is not set up touches nothing. -/
def sendByte (u : Uart) (base : Word) (v : UInt8) : SerialM Unit := do
  if u.ready then
    let status ← Word.add base statusOffset
    let data ← Word.add base dataOffset
    let b ← get
    awaitRoom status (b.line.patience b.reads)
    modify fun b => { b with accesses := b.accesses.push (.data data v) }

/-- The bytes that go over the line for `v`: a carriage return goes before a line feed. -/
def expand (v : UInt8) : List UInt8 := if v = 10 then [13, 10] else [v]

/-- Send bytes as they are through the device at `base`. -/
def sendAll (u : Uart) (base : Word) : List UInt8 → SerialM Unit
  | [] => return ()
  | v :: rest => do
    u.sendByte base v
    u.sendAll base rest

/-- Send bytes through the device at `base`, line feeds expanded. -/
def send (u : Uart) (base : Word) (bytes : List UInt8) : SerialM Unit :=
  u.sendAll base (bytes.flatMap expand)

/-- Send a text through the driver's own device. -/
def write (u : Uart) (text : String) : SerialM Unit := u.send u.base text.toUTF8.toList

/-- Send bytes through the device at `base` and keep the driver where it is. Gives whether the
driver may be driven. -/
def probe (u : Uart) (base : Word) (bytes : List UInt8) : SerialM Bool := do
  if u.ready then
    u.send base bytes
    return true
  else return false

end Uart

end HighHalf
