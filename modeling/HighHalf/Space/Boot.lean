import HighHalf.Frames.Setup
import HighHalf.Transition.Run

/-!
# Bringing up the address space

Bringing up sets up the frame store and makes the move to the high half. It happens once; later
requests give the recorded mode and change nothing. A move that was given up leaves the kernel
with physical addresses and with its frames.
-/

namespace HighHalf

namespace Space

/-- Find the address space again at the alias `d` bytes up. -/
def follow (d : Word) : BoardM Unit := Board.follow (.object "space") d

/-- The mode, as it is found at the alias `d` bytes up. -/
def modeAt (d : Word) : SpaceM Mode := do
  follow d
  return (← get).mode

/-- Settle for physical addresses. Tables built so far are never walked. -/
def enterBypass (a : Abort) : SpaceM Unit := do
  Board.note .warn .space "continuing with physical addressing"
  let phase ← Transition.stepTo a.phase .bypass
  modify fun s => { s with phase := phase, abort := some a, roots := none, live := .identity }
  Control.setVectors (← get).layout.vectors.val

/-- Settle in the high half. -/
def enterHighHalf (arrival : Arrival) : SpaceM Unit := do
  follow arrival.displacement
  modify fun s => { s with roots := some arrival.roots, phase := .highOnly }
  let kernel := (← get).config.highBase.hex
  Board.note .info .space s!"virtual addressing up, kernel at {kernel}"

/-- Record the mode the kernel settled in. -/
def settle (mode : Mode) : SpaceM Mode := do
  modify fun s => { s with mode := mode }
  return mode

/-- Bring up the address space, once. Gives the mode. A frame store that cannot be set up is
fatal. -/
def boot : SpaceM Mode := do
  let mode := (← get).mode
  if mode ≠ .unsettled then
    Board.note .debug .space s!"memory subsystem already initialized ({mode})"
    return mode
  let config := (← get).config
  let layout := (← get).layout
  if let .error e ← Memory.setup layout.image then throw (.noFrames e)
  match ← (Transition.run config layout).run with
  | .ok arrival =>
    enterHighHalf arrival
    settle .resolved
  | .error a =>
    Board.note .error .space a.message
    enterBypass a
    settle .bypass

end Space

end HighHalf
