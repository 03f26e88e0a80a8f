import HighHalf.Descriptor.Flags
import HighHalf.Platform

/-!
# Regions that are mapped twice

What the processor touches between the moment address resolution is turned on and the first
access through the high half must be reachable at both aliases: code, constants, data, stack,
vectors, the page that runs first on the high alias, and the serial device. A later region
overrides an earlier one where they share a page.
-/

namespace HighHalf

/-- A region that is mapped at both of its aliases. -/
structure Region where
  name : String
  range : PhysRange
  flags : Flags
  executable : Bool
deriving DecidableEq, Repr, Inhabited

namespace Region

/-- The regions in the order in which they are mapped. -/
def all (c : MemoryConfig) (l : ImageLayout) : Except Fatal (List Region) := do
  let vectors ← PhysRange.pageOf l.vectors
  let continuation ← PhysRange.pageOf l.continuation
  let uart ← PhysRange.pageOf c.uart
  return [
    ⟨"text", l.text, .text, true⟩,
    ⟨"rodata", l.rodata, .rodata, false⟩,
    ⟨"data", l.data, .data, false⟩,
    ⟨"stack", l.stack, .data, false⟩,
    ⟨"vectors", vectors, .text, true⟩,
    ⟨"continuation", continuation, .text, true⟩,
    ⟨"uart", uart, .device, false⟩]

end Region

end HighHalf
