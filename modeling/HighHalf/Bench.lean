import HighHalf.Relocation
import HighHalf.Serial.Uart
import HighHalf.Space.Basic
import HighHalf.Tables.Walk

/-!
# Benches

A bench is a board set up for trials: RAM of any size at any physical address, reached at two
places, and a processor that begins with given registers and may read some of them wrongly.
What is put into RAM from outside has to stay inside it: a table descriptor may only lead to a
page of RAM, so that no walk leaves the bank.

## Main definitions

* `Bench.ram`, `Bench.processor`: the parts of a bench
* `Ram.admits`, `Ram.enclosesWalks`: what keeps walks inside RAM
* `Bench.space`: an address space over a bench, if its image and its RAM fit
-/

namespace HighHalf

/-! ## What lies in a bank -/

namespace Ram

/-- Whether the whole page around `p` lies in the bank. -/
def holdsPage (r : Ram) (p : PhysAddr) : Bool := r.holds p.floor 4096

/-- Whether the page around `p` can be used as a table: it lies in the bank, and since the bank
begins where a page begins, it is aligned at the places where the bank is reached, too. -/
def holdsTable (r : Ram) (p : PhysAddr) : Bool := r.base.aligned && r.holdsPage p

/-- Whether the `n` words from `p` on are among those that make up the bank. No words at all may
also stand just past its end. -/
def holdsWords (r : Ram) (p : PhysAddr) (n : Nat) : Bool :=
  r.holds p (8 * n) && (p.val.toNat - r.base.val.toNat) % 8 = 0

/-- Whether `p` is one of the words that make up the bank. -/
def holdsWord (r : Ram) (p : PhysAddr) : Bool := r.holdsWords p 1

/-- Whether a range begins and ends in the bank. -/
def encloses (r : Ram) (range : PhysRange) : Bool :=
  r.base.val.toNat ≤ range.start.val.toNat && range.stop.val.toNat ≤ r.top

/-- Whether `v` may be put into RAM: if it is a table descriptor, its table is a page of RAM. -/
def admits (r : Ram) (v : Word) : Bool :=
  let e : Entry := ⟨v⟩
  !e.isTable || r.holdsPage e.addr

/-- Whether the bank can hold tables: it is made of whole pages, and a descriptor has room for
the address of each. -/
def enclosesWalks (r : Ram) : Bool := r.base.aligned && r.top ≤ Nat.pow 2 48

end Ram

/-! ## The parts of a bench -/

namespace Bench

/-- Where RAM is reached. -/
def home : Word := 0x200000000000

/-- How much higher it is reached again. -/
def gap : Word := 0x100000000000

/-- Most pages of RAM. -/
def pageLimit : Nat := 40000

/-- `pages` zeroed pages from `base` on. The bank ends inside 64 bits. -/
def ram (base : PhysAddr) (pages : Nat) : Option Ram :=
  if pages = 0 || pageLimit < pages || UInt64.size ≤ base.val.toNat + 4096 * pages then none
  else some (.zeroed base pages home gap)

/-- The window at the second place. -/
def upperWindow (r : Ram) : Window := r.window.shifted r.gap

/-- RAM with words put into it, if it admits all of them. -/
def load : Ram → List (PhysAddr × Word) → Option Ram
  | r, [] => some r
  | r, (p, v) :: rest =>
    if r.holdsWord p && r.admits v then
      let a := r.window.reach p
      load (r.setWord a v) rest
    else none

/-- A processor in front of `size` bytes of RAM. Execution moves as asked, or always by
`applied`; RAM is found again at its second place, and everything else stays where it is. -/
def processor (registers : PerRegister Word) (defects : List ReadDefect) (stackPointer : Word)
    (applied : Option Word) (size : Nat) : Processor :=
  .fresh registers {
    readback := ReadDefect.disturb defects
    stackPointer := stackPointer
    moved := fun d => applied.getD d
    aliasAt := fun a d => if d ≠ 0 && (a - home).toNat < size then a + gap else a }

/-- A processor without anything to remark, in front of `size` bytes of RAM. -/
def plainProcessor (size : Nat) : Processor := processor (.all 0) [] 0 none size

/-- A board with no RAM and no console. -/
def bareBoard (cpu : Processor) : Board := .fresh (.zeroed ⟨0⟩ 0 0 0) cpu ⟨0, false⟩

/-! ## Serial devices -/

/-- The serial devices of a bench. -/
def devices : List Word := [0x100000000000, 0x100000010000]

/-- A driver for the first device. -/
def uart (ready : Bool) : Uart := ⟨0x100000000000, ready⟩

/-- Whether a driver can be used at `base`: a driver that is not set up touches nothing. -/
def drivable (u : Uart) (base : Word) : Bool := !u.ready || devices.contains base

/-- The status of a device with nothing to send. -/
def idleStatus : UInt32 := 0x90

/-- A line whose queue is full for `busy` reads before each byte. -/
def serialBus (busy : Nat) : SerialBus := { line := .slow idleStatus busy (by decide) }

/-! ## Whole benches -/

/-- Whether two ranges share an address, if both have one. -/
def overlap (a b : PhysRange) : Bool := a.start.val < b.stop.val && b.start.val < a.stop.val

/-- Whether a relocation table can be read and applied in RAM: table and data lie in it, and
applying a record does not change another. A table too short for a record is never read. -/
def relocationsFit (r : Ram) (t : Relocations) (data : PhysRange) : Bool :=
  t.table.size < UInt64.ofNat Reloc.size
    || (r.base.aligned && r.encloses t.table && !overlap t.table data
      && (data.isEmpty || r.encloses data))

/-- The frame store over a bench, before it is set up. -/
def memory (region : PhysRange) (r : Ram) : Option Memory :=
  if region.start.val ≤ region.stop.val && !r.encloses region then none
  else
    let window := r.window
    let size := r.size
    some {
      board := .fresh r (plainProcessor size) ⟨0, false⟩
      frames := { region := region, window := window } }

/-- The address space over a bench, before it is brought up. -/
def space (config : MemoryConfig) (layout : ImageLayout) (r : Ram) (cpu : Processor)
    (console : Console) : Option Space :=
  let memory := config.memory
  if r.enclosesWalks && memory.start.aligned && memory.start.val ≤ memory.stop.val
      && r.encloses memory && relocationsFit r ⟨layout.relocations⟩ layout.data then
    let window := r.window
    some (.fresh config layout (.fresh r cpu console) window)
  else none

end Bench

end HighHalf
