import HighHalf.Board.Event
import HighHalf.Fatal
import HighHalf.Log

/-!
# The board

The board is all that the kernel acts on: RAM, the processor and the console, together with the
list of what was done to them and the log. A `BoardM` action is a step of the kernel that
acts on the board alone. It either returns or stops for good, and a stop keeps the board as it
is at that moment.
-/

namespace HighHalf

/-- The console: where its device is reached, and whether it can send. -/
structure Console where
  base : Word
  ready : Bool
deriving DecidableEq, Repr, Inhabited

/-- The board. -/
structure Board where
  ram : Ram
  cpu : Processor
  console : Console
  /-- What was done to the board, oldest first. -/
  trace : Array Event
  /-- The log, oldest first. -/
  log : Array Record

/-- A step of the kernel that acts on the board alone. -/
abbrev BoardM := EStateM Fatal Board

namespace Board

/-- A board on which nothing has happened yet. -/
def fresh (ram : Ram) (cpu : Processor) (console : Console) : Board where
  ram := ram
  cpu := cpu
  console := console
  trace := #[]
  log := #[]

/-! ## The record of a run -/

/-- Put an event at the end of the trace. -/
def emit (e : Event) : BoardM Unit := fun b => .ok () { b with trace := b.trace.push e }

/-- Put a record at the end of the log. -/
def note (level : Level) (component : Component) (message : String) : BoardM Unit := fun b =>
  .ok () { b with log := b.log.push ⟨level, component, message⟩ }

/-! ## RAM -/

/-- Store to RAM. -/
def store (s : Store) : BoardM Unit := fun ⟨ram, cpu, console, trace, log⟩ =>
  .ok () ⟨s.apply ram, cpu, console, trace.push (.store s), log⟩

/-- The word reached at `a`. -/
def load (a : Word) : BoardM Word := fun b => .ok (b.ram.word a) b

/-! ## The processor -/

/-- Read a register. -/
def readRegister (r : Register) : BoardM Word := fun b =>
  let v := b.cpu.answer r
  .ok v { b with cpu := b.cpu.countRead r, trace := b.trace.push (.read r v) }

/-- Write a register. No barrier is implied. -/
def writeRegister (r : Register) (v : Word) : BoardM Unit := fun b =>
  .ok () { b with cpu := b.cpu.write r v, trace := b.trace.push (.write r v) }

/-- Data barrier. -/
def dsb (domain : Shareability) : BoardM Unit := emit (.dsb domain)

/-- Instruction barrier. -/
def isb : BoardM Unit := emit .isb

/-- Clean the cache line of `a`. -/
def clean (a : Word) : BoardM Unit := emit (.clean a)

/-- Drop all cached resolutions of this core. -/
def tlbi : BoardM Unit := emit .tlbi

/-- Make the descriptor stored at `a` visible to the walker. -/
def publish (a : Word) : BoardM Unit := do
  clean a
  dsb .inner
  isb

/-- Move execution to the alias `d` bytes up; gives how far it was really moved. -/
def relocate (d : Word) : BoardM Word := do
  emit (.relocate d)
  return (← get).cpu.behaviour.moved d

/-- The stack pointer. -/
def stackPointer : BoardM Word := do return (← get).cpu.behaviour.stackPointer

/-- Look something up at the alias `d` bytes up. -/
def follow (what : Followed) (d : Word) : BoardM Unit := emit (.follow what d)

/-- Where RAM that is reached at `a` is reached at the alias `d` bytes up. -/
def aliasOfRam (a d : Word) : BoardM Word := do
  follow (.ram a) d
  return (← get).cpu.behaviour.aliasAt a d

/-! ## The console -/

/-- Send `text` from the device at `base` without moving the console there. Gives whether the
console can send at all. -/
def probe (base : Word) (text : String) : BoardM Bool := do
  emit (.probe base text)
  return (← get).console.ready

/-- Where the console's device is reached. -/
def consoleBase : BoardM Word := do return (← get).console.base

/-- Let the console send from the device at `base` from now on. -/
def moveConsole (base : Word) : BoardM Unit := fun b =>
  .ok () { b with
    console := { b.console with base := base }
    trace := b.trace.push (.console base) }

/-- Send `text` from the console's device. -/
def print (text : String) : BoardM Unit := emit (.print text)

end Board

end HighHalf
