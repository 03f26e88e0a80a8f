import HighHalf.Word

/-!
# Exception syndromes

The syndrome register says what kind of exception was taken and, for an abort, what went wrong
with the access. The index of the vector says where the exception came from and how it is
delivered.
-/

namespace HighHalf

/-- The kind of exception, bits 26 to 31 of a syndrome. -/
inductive ExceptionClass where
  | unknown
  /-- Supervisor call. -/
  | supervisorCall
  | instructionAbortLower
  | instructionAbortSame
  | pcAlignment
  | dataAbortLower
  | dataAbortSame
  | spAlignment
  | systemError
  /-- Any kind that is not told apart. -/
  | other
deriving DecidableEq, Repr, Inhabited

namespace ExceptionClass

/-- The kind of exception a syndrome speaks of. -/
def ofSyndrome (esr : Word) : ExceptionClass :=
  match ((esr >>> 26) &&& 0x3F).toNat with
  | 0x00 => unknown
  | 0x15 => supervisorCall
  | 0x20 => instructionAbortLower
  | 0x21 => instructionAbortSame
  | 0x22 => pcAlignment
  | 0x24 => dataAbortLower
  | 0x25 => dataAbortSame
  | 0x26 => spAlignment
  | 0x2F => systemError
  | _ => other

/-- The number of a kind; the last one stands for all that are not told apart. -/
def code : ExceptionClass → Nat
  | unknown => 0x00
  | supervisorCall => 0x15
  | instructionAbortLower => 0x20
  | instructionAbortSame => 0x21
  | pcAlignment => 0x22
  | dataAbortLower => 0x24
  | dataAbortSame => 0x25
  | spAlignment => 0x26
  | systemError => 0x2F
  | other => 0xFF

/-- Whether an access was refused. -/
def isAbort : ExceptionClass → Bool
  | instructionAbortLower | instructionAbortSame | dataAbortLower | dataAbortSame => true
  | unknown | supervisorCall | pcAlignment | spAlignment | systemError | other => false

end ExceptionClass

/-- What went wrong with an access, bits 0 to 5 of a syndrome. Most faults name the level of the
walk at which they arose. -/
inductive FaultStatus where
  /-- The address has too many bits. -/
  | addressSize (level : Nat)
  /-- There is no valid descriptor. -/
  | noDescriptor (level : Nat)
  /-- The leaf has no access flag. -/
  | accessFlag (level : Nat)
  /-- The leaf does not permit the access. -/
  | permission (level : Nat)
  | alignment
  | other (code : Nat)
deriving DecidableEq, Repr, Inhabited

namespace FaultStatus

/-- What a syndrome says about the access. -/
def ofSyndrome (esr : Word) : FaultStatus :=
  let code := (esr &&& 0x3F).toNat
  let level := code % 4
  match code / 4 with
  | 0 => addressSize level
  | 1 => noDescriptor level
  | 2 => accessFlag level
  | 3 => permission level
  | _ => if code = 0x21 then alignment else other code

/-- The text shown for a fault. -/
def text : FaultStatus → String
  | addressSize level => s!"address size fault, level {level}"
  | noDescriptor level => s!"translation fault, level {level}"
  | accessFlag level => s!"access flag fault, level {level}"
  | permission level => s!"permission fault, level {level}"
  | alignment => "alignment fault"
  | other code => "fault status " ++ Word.hexPadded (UInt64.ofNat code) 2

instance : ToString FaultStatus := ⟨text⟩

end FaultStatus

/-- Where an exception came from. -/
inductive VectorSource where
  /-- The current level, on the shared stack. -/
  | currentShared
  /-- The current level, on its own stack. -/
  | currentOwn
  /-- A lower level in 64-bit state. -/
  | lower64
  /-- A lower level in 32-bit state. -/
  | lower32
deriving DecidableEq, Repr, Inhabited

/-- How an exception is delivered. -/
inductive VectorKind where
  | sync
  | irq
  | fiq
  | systemError
deriving DecidableEq, Repr, Inhabited

/-- Source and kind of the vector with an index; only the low four bits count. -/
def decodeVector (index : Word) : VectorSource × VectorKind :=
  let source := match ((index >>> 2) &&& 3).toNat with
    | 0 => VectorSource.currentShared
    | 1 => .currentOwn
    | 2 => .lower64
    | _ => .lower32
  let kind := match (index &&& 3).toNat with
    | 0 => VectorKind.sync
    | 1 => .irq
    | 2 => .fiq
    | _ => .systemError
  (source, kind)

end HighHalf
