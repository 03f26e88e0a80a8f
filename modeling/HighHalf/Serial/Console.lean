import HighHalf.Serial.Uart

/-!
# The console on the serial line

All of the kernel shares one driver and the line behind it. Texts go to the device that the driver
is kept at. To try whether a device answers at another place, bytes are sent there while the driver
stays where it is.

## Main definitions

* `SerialConsole.write`: send a text
* `SerialConsole.probe`: send bytes to a place that is tried
-/

namespace HighHalf

/-- The driver that all of the kernel shares, and the line behind it. -/
structure SerialConsole where
  driver : Uart
  bus : SerialBus

namespace SerialConsole

variable {α : Type}

/-- Let the driver act on the line. -/
def drive (x : Uart → SerialM α) : EStateM Fatal SerialConsole α := fun c =>
  match x c.driver c.bus with
  | .ok a b => .ok a { c with bus := b }
  | .error e b => .error e { c with bus := b }

/-- Send a text to the device that the driver is kept at. -/
def write (text : String) : EStateM Fatal SerialConsole Unit := drive fun u => u.write text

/-- Send bytes to the device at `base`. -/
def probe (base : Word) (bytes : List UInt8) : EStateM Fatal SerialConsole Bool :=
  drive fun u => u.probe base bytes

end SerialConsole

end HighHalf
