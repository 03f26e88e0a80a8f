import HighHalf.Board.Basic

/-!
# Reports of a run

What happened on a board since some moment, as lines of text: the events of the processor, with
publications of neighbouring descriptors gathered, the log as far as a verbosity shows it, and
the calls of the console.
-/

namespace HighHalf

/-- The name shown for a domain. -/
def Shareability.text : Shareability → String
  | system => "sy"
  | inner => "ish"
  | core => "nsh"

namespace Event

/-- The line for an event of the processor; the other events have none. -/
def line? : Event → Option String
  | write r v => some s!"W {r} {v.hex}"
  | dsb domain => some s!"dsb {domain.text}"
  | isb => some "isb"
  | clean a => some s!"clean {a.hex}"
  | tlbi => some "tlbi"
  | relocate d => some s!"relocate {d.hex}"
  | store _ | read .. | follow .. | probe .. | console _ | print _ => none

/-- The line for a call of the console; the other events have none. -/
def call? : Event → Option String
  | probe base text => some s!"probe {base.hex} {text}"
  | console base => some s!"base {base.hex}"
  | print text => some s!"write {text}"
  | store _ | read .. | write .. | dsb _ | isb | clean _ | tlbi | relocate _ | follow .. => none

/-- What the console was asked to send, by whatever call. -/
def sent? : Event → Option String
  | probe _ text => some text
  | print text => some text
  | _ => none

end Event

/-- The line for a stretch. -/
def Stretch.line : Stretch → String
  | single e => e.line?.getD ""
  | published a count => s!"P {a.hex} {count}"

/-- The line for a record. -/
def Record.line (r : Record) : String := s!"{r.level.name} {r.component.name} {r.message}"

/-- A moment of a run, by how much had happened. -/
structure Moment where
  events : Nat
  records : Nat
deriving DecidableEq, Repr, Inhabited

namespace Board

/-- The present moment. -/
def now (b : Board) : Moment := ⟨b.trace.size, b.log.size⟩

/-- What the processor did since `m`. -/
def processorLines (b : Board) (m : Moment) : List String :=
  let events := (b.trace.extract m.events b.trace.size).toList
  (Stretch.ofEvents (events.filter fun e => e.line?.isSome)).map Stretch.line

/-- The records since `m`. -/
def recordsSince (b : Board) (m : Moment) : List Record :=
  (b.log.extract m.records b.log.size).toList

/-- The records since `m` that a verbosity shows. -/
def logLines (b : Board) (m : Moment) (v : Verbosity) : List String :=
  ((b.recordsSince m).filter fun r => v.shows r.level).map Record.line

/-- All calls of the console. -/
def consoleLines (b : Board) : List String := b.trace.toList.filterMap Event.call?

/-- All that the console was asked to send. -/
def consoleOutput (b : Board) : String := String.join (b.trace.toList.filterMap Event.sent?)

/-- The devices that the console was asked to try, in order. -/
def probes (b : Board) : List Word := b.trace.toList.filterMap fun
  | .probe base _ => some base
  | _ => none

/-- All register writes. -/
def writes (b : Board) : List (Register × Word) := b.trace.toList.filterMap fun
  | .write r v => some (r, v)
  | _ => none

/-- The displacements by which execution was asked to move. -/
def relocations (b : Board) : List Word := b.trace.toList.filterMap fun
  | .relocate d => some d
  | _ => none

/-- What was looked up at another alias, in order. -/
def followed (b : Board) : List Followed := b.trace.toList.filterMap fun
  | .follow what _ => some what
  | _ => none

/-- The RAM among it, by its physical address at the first place. -/
def followedRam (b : Board) : List PhysAddr := b.followed.filterMap fun
  | .ram a => some ⟨a - b.ram.window.offset⟩
  | _ => none

end Board

end HighHalf
