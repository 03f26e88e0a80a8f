import HighHalf.Board.Processor
import HighHalf.Board.Ram

/-!
# What the kernel does to its board

Every effect of the kernel on the board is an event: stores to RAM, accesses to system
registers, barriers and cache maintenance, moves of execution and calls of the console. The
events of a run stand in one list, in the order they happened, so that a statement about the
board at any moment of a run is a statement about a beginning of that list.
-/

namespace HighHalf

/-- A store to RAM, by the address at which it is made. -/
inductive Store where
  | byte (a : Word) (v : UInt8)
  | word (a : Word) (v : Word)
  /-- `n` zero bytes. -/
  | clear (a : Word) (n : Nat)
deriving DecidableEq, Repr

/-- What a store does to RAM. -/
def Store.apply (r : Ram) : Store → Ram
  | .byte a v => r.setByte a v
  | .word a v => r.setWord a v
  | .clear a n => r.clear a n

/-- What is found again at its high alias. -/
inductive Followed where
  /-- A value of the kernel outside the managed RAM. -/
  | object (name : String)
  /-- The managed RAM, reached at `a`. -/
  | ram (a : Word)
  /-- A text of the image. -/
  | text (s : String)
deriving DecidableEq, Repr

/-- One effect on the board. -/
inductive Event where
  /-- A store to RAM. -/
  | store (s : Store)
  /-- A register was read and gave `v`. -/
  | read (r : Register) (v : Word)
  /-- `v` was written to a register. -/
  | write (r : Register) (v : Word)
  /-- Data barrier. -/
  | dsb (domain : Shareability)
  /-- Instruction barrier. -/
  | isb
  /-- The cache line of `a` was cleaned. -/
  | clean (a : Word)
  /-- All cached resolutions of this core were dropped. -/
  | tlbi
  /-- Execution was asked to move `d` bytes up. -/
  | relocate (d : Word)
  /-- Something was looked up at the alias `d` bytes up. -/
  | follow (what : Followed) (d : Word)
  /-- The console was asked to send `text` from the device at `base`. -/
  | probe (base : Word) (text : String)
  /-- The console was moved to the device at `base`. -/
  | console (base : Word)
  /-- The console was asked to send `text`. -/
  | print (text : String)
deriving DecidableEq, Repr

namespace Event

/-- The three events that make a stored descriptor visible to the walker. -/
def publication (a : Word) : List Event := [clean a, dsb .inner, isb]

/-- RAM after the stores among `events`. -/
def replay (r : Ram) (events : List Event) : Ram :=
  events.foldl (fun r e => match e with | store s => s.apply r | _ => r) r

end Event

/-- A stretch of processor events as it is shown: one event, or `count` publications of
descriptors that lie next to each other. -/
inductive Stretch where
  | single (e : Event)
  | published (a : Word) (count : Nat)
deriving DecidableEq, Repr

namespace Stretch

/-- Whether a publication at `a` continues the stretch. -/
def continuedBy (a : Word) : Stretch → Bool
  | published first count => a = first + 8 * UInt64.ofNat count
  | single _ => false

/-- Put a publication at `a` after the stretches in `done`, which stand newest first. -/
def push (a : Word) : List Stretch → List Stretch
  | published first count :: done =>
    if continuedBy a (published first count) then published first (count + 1) :: done
    else published a 1 :: published first count :: done
  | done => published a 1 :: done

/-- Gather events into stretches after those in `done`, which stand newest first. -/
def gather (done : List Stretch) : List Event → List Stretch
  | .clean a :: .dsb .inner :: .isb :: rest => gather (push a done) rest
  | e :: rest => gather (single e :: done) rest
  | [] => done.reverse

/-- The events as they are shown: publications of neighbouring descriptors stand together. -/
def ofEvents (events : List Event) : List Stretch := gather [] events

end Stretch

end HighHalf
