import HighHalf.Log
import HighHalf.Serial.Uart

/-!
# The log on the serial line

Once it is installed, the kernel log turns each record that its verbosity lets through into one
line on the serial line: level, component and message. The component is the last segment of
the record's target. A log is installed once; a second attempt is refused and changes nothing.
-/

namespace HighHalf

/-- What follows the last `::` of a target, if there is one. -/
def afterLastColons : List Char → Option (List Char)
  | [] => none
  | c :: rest =>
    match afterLastColons rest with
    | some found => some found
    | none =>
      match c, rest with
      | ':', ':' :: segment => some segment
      | _, _ => none

/-- The component of a target: its last segment, or the whole target. -/
def componentOf (target : String) : String :=
  match afterLastColons target.toList with
  | some segment => String.ofList segment
  | none => target

/-- The kernel log: whether it is installed, and how much it shows. -/
structure KernelLog where
  installed : Bool := false
  shown : Verbosity := .off
deriving DecidableEq, Repr, Inhabited

namespace KernelLog

/-- How much a log shows if nothing else is asked for. -/
def defaultShown : Verbosity := ⟨some .info⟩

/-- The text for a second attempt to install a log. -/
def alreadyInstalled : String :=
  "attempted to set a logger after the logging system was already initialized"

/-- Install the log, unless it is installed already. -/
def install (k : KernelLog) (v : Verbosity) : KernelLog × Except String Unit :=
  if k.installed then (k, .error alreadyInstalled) else (⟨true, v⟩, .ok ())

/-- The line for a record. -/
def line (level : Level) (target message : String) : String :=
  let name := level.name.pushn ' ' (5 - level.name.length)
  let component := componentOf target
  s!"[{name} {component}] {message}\n"

/-- Send the line for a record, if the verbosity lets it through. -/
def emit (shown : Verbosity) (u : Uart) (level : Level) (target message : String) :
    SerialM Unit :=
  if shown.shows level then u.write (line level target message) else return ()

/-- A record on its way to the line, with the target it was made under. -/
structure Message where
  level : Level
  target : String
  text : String
deriving DecidableEq, Repr, Inhabited

/-- The message for a record of the kernel, whose component is its target. -/
def Message.ofRecord (r : Record) : Message := ⟨r.level, r.component.name, r.message⟩

/-- Send the lines for a list of messages. -/
def emitAll (shown : Verbosity) (u : Uart) : List Message → SerialM Unit
  | [] => return ()
  | m :: rest => do
    emit shown u m.level m.target m.text
    emitAll shown u rest

end KernelLog

end HighHalf
