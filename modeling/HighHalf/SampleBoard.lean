import HighHalf.Space.Boot
import HighHalf.Space.Request

/-!
# A sample board

A small board with an image already loaded: a megabyte or two of RAM, a serial device, and an
image of sixteen pages whose data holds two pointers into itself. Its processor answers as
asked, except that one register may read back wrong, and its RAM is reached at one place only.
-/

namespace HighHalf

namespace SampleBoard

/-- First byte of RAM. -/
def ramBase : Word := 0x40000000

/-- Where the relocation table lies, at the bottom of the constants. -/
def relocationBase : Word := ramBase + 0x8000

/-- The pointers in the image's data: each slot with the address it holds. -/
def pointers : List (Word × Word) :=
  [(ramBase + 0xA000, ramBase + 0x0840), (ramBase + 0xA008, ramBase + 0x8100)]

/-- The stack pointer at the time of the move. -/
def stackPointer : Word := 0x4000F000

/-- What the system control register holds after reset. -/
def controlAtReset : Word := 0x30D00800

/-- RAM pages of the board. -/
def pages : Nat := 512

/-- RAM pages of a board too small for the tables. -/
def fewPages : Nat := 20

/-- Where the parts of the image lie. -/
def layout : ImageLayout where
  image := .ofWords ramBase (ramBase + 0x10000)
  text := .ofWords ramBase (ramBase + 0x8000)
  rodata := .ofWords (ramBase + 0x8000) (ramBase + 0xA000)
  data := .ofWords (ramBase + 0xA000) (ramBase + 0xC000)
  stack := .ofWords (ramBase + 0xC000) (ramBase + 0x10000)
  vectors := ⟨ramBase + 0x1000⟩
  continuation := ⟨ramBase + 0x2000⟩
  relocations :=
    .ofWords relocationBase (relocationBase + UInt64.ofNat (Reloc.size * pointers.length))

/-- The words that the loader puts into RAM: the relocation records, and the pointers. -/
def image : List (Word × Word) :=
  (pointers.zipIdx.map fun ((slot, target), i) =>
    let reloc := Reloc.relative ⟨slot⟩ target
    let a := relocationBase + UInt64.ofNat (Reloc.size * i)
    [(a, reloc.offset), (a + 8, reloc.info), (a + 16, reloc.addend), (slot, target)]).flatten

/-- How the processor answers: reads of the register `wrong` give the complement. -/
def behaviour (wrong : Option Register) (stackPointer : Word) : Behaviour where
  readback r _ v := if wrong = some r then ~~~v else v
  stackPointer := stackPointer
  moved d := d
  aliasAt a _ := a

/-- The processor after reset. -/
def processor (wrong : Option Register) (stackPointer : Word) : Processor :=
  .fresh ((PerRegister.all 0).set .sctlr controlAtReset) (behaviour wrong stackPointer)

/-- RAM with the image loaded. -/
def ram (pages : Nat) : Ram :=
  image.foldl (fun r (a, v) => r.setWord a v) (.zeroed ⟨ramBase⟩ pages ramBase 0)

/-- The board, brought as far as its reset. -/
def space (pages : Nat) (cpu : Processor) : Space :=
  let ram := ram pages
  let config : MemoryConfig :=
    { memory := ram.range, uart := ⟨MemoryConfig.uartBase⟩, width := .bits48, tableReserve := 16 }
  let window := ram.window
  .fresh config layout (.fresh ram cpu ⟨MemoryConfig.uartBase, true⟩) window

/-- Where the word at `p` is reached. An address outside RAM is fatal. -/
def place (r : Ram) (p : PhysAddr) : Except Fatal Word :=
  if r.range.contains p then .ok (r.window.reach p) else .error (.outsideRam p.val)

/-- The word at `p`. -/
def read (r : Ram) (p : PhysAddr) : Except Fatal Word := return r.word (← place r p)

/-- RAM with `v` as the word at `p`. -/
def write (r : Ram) (p : PhysAddr) (v : Word) : Except Fatal Ram := return r.setWord (← place r p) v

end SampleBoard

end HighHalf
