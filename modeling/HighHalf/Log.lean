/-!
# Log records

A record has a level, the component it comes from and a message. Records are kept in the order
they are made; a reader chooses how much to see by a verbosity.
-/

namespace HighHalf

/-- How serious a record is. -/
inductive Level where
  | error
  | warn
  | info
  | debug
  | trace
deriving DecidableEq, Repr, Inhabited

namespace Level

/-- All levels, the most serious first. -/
def all : List Level := [error, warn, info, debug, trace]

/-- Rank of a level: the most serious has rank 1. -/
def rank : Level → Nat
  | error => 1
  | warn => 2
  | info => 3
  | debug => 4
  | trace => 5

/-- The name shown for a level. -/
def name : Level → String
  | error => "ERROR"
  | warn => "WARN"
  | info => "INFO"
  | debug => "DEBUG"
  | trace => "TRACE"

/-- The level of a name, upper or lower case. -/
def ofName? (s : String) : Option Level :=
  all.find? fun l => l.name.toLower = s.toLower

end Level

/-- How much a reader wants to see: nothing, or everything at least as serious as a level. -/
structure Verbosity where
  limit : Option Level
deriving DecidableEq, Repr, Inhabited

namespace Verbosity

/-- See nothing. -/
def off : Verbosity := ⟨none⟩

/-- Rank of the least serious level that is seen, 0 if there is none. -/
def rank (v : Verbosity) : Nat := v.limit.elim 0 Level.rank

/-- Whether records of level `l` are seen. -/
def shows (v : Verbosity) (l : Level) : Bool := l.rank ≤ v.rank

/-- The name shown for a verbosity. -/
def name (v : Verbosity) : String := v.limit.elim "OFF" Level.name

/-- The verbosity of a name, upper or lower case. -/
def ofName? (s : String) : Option Verbosity :=
  if s.toLower = "off" then some off else (Level.ofName? s).map fun l => ⟨some l⟩

end Verbosity

/-- The parts of the kernel that make records. -/
inductive Component where
  | frames
  | tables
  | control
  | transition
  | ledger
  | relocation
  | space
deriving DecidableEq, Repr, Inhabited

namespace Component

/-- The name shown for a component. -/
def name : Component → String
  | frames => "frame"
  | tables => "mapper"
  | control => "policy"
  | transition => "bootstrap"
  | ledger => "audit"
  | relocation => "image"
  | space => "space"

end Component

/-- One log record. -/
structure Record where
  level : Level
  component : Component
  message : String
deriving DecidableEq, Repr, Inhabited

end HighHalf
