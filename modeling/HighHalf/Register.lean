/-!
# System registers

The six registers that decide how addresses are resolved and where exceptions go, and a record
with one field for each of them.
-/

namespace HighHalf

/-- The system registers the kernel reads or writes. -/
inductive Register where
  /-- Memory attribute indirection: what the attribute index of a descriptor means. -/
  | mair
  /-- Control of both walks. -/
  | tcr
  /-- Root table of the low half. -/
  | ttbr0
  /-- Root table of the high half. -/
  | ttbr1
  /-- System control; bit 0 turns address resolution on. -/
  | sctlr
  /-- Exception vector base. -/
  | vbar
deriving DecidableEq, Repr, Inhabited

namespace Register

/-- All registers, in their fixed order. -/
def all : List Register := [mair, tcr, ttbr0, ttbr1, sctlr, vbar]

/-- Place of a register in the fixed order. -/
def index : Register → Nat
  | mair => 0
  | tcr => 1
  | ttbr0 => 2
  | ttbr1 => 3
  | sctlr => 4
  | vbar => 5

/-- Architectural name. -/
def name : Register → String
  | mair => "MAIR_EL1"
  | tcr => "TCR_EL1"
  | ttbr0 => "TTBR0_EL1"
  | ttbr1 => "TTBR1_EL1"
  | sctlr => "SCTLR_EL1"
  | vbar => "VBAR_EL1"

/-- The register of a name. -/
def ofName? (s : String) : Option Register := all.find? fun r => r.name = s

instance : ToString Register := ⟨name⟩

theorem mem_all (r : Register) : r ∈ all := by cases r <;> decide

theorem ofName?_name (r : Register) : ofName? r.name = some r := by cases r <;> decide

theorem all_index (r : Register) : all[r.index]? = some r := by cases r <;> rfl

end Register

/-- One value for each system register. -/
structure PerRegister (α : Type) where
  mair : α
  tcr : α
  ttbr0 : α
  ttbr1 : α
  sctlr : α
  vbar : α
deriving DecidableEq, Repr, Inhabited

namespace PerRegister

variable {α : Type}

/-- The same value everywhere. -/
def all (a : α) : PerRegister α := ⟨a, a, a, a, a, a⟩

/-- The value kept for `r`. -/
def get (f : PerRegister α) : Register → α
  | .mair => f.mair
  | .tcr => f.tcr
  | .ttbr0 => f.ttbr0
  | .ttbr1 => f.ttbr1
  | .sctlr => f.sctlr
  | .vbar => f.vbar

/-- Keep `a` for `r`. -/
def set (f : PerRegister α) (r : Register) (a : α) : PerRegister α :=
  match r with
  | .mair => { f with mair := a }
  | .tcr => { f with tcr := a }
  | .ttbr0 => { f with ttbr0 := a }
  | .ttbr1 => { f with ttbr1 := a }
  | .sctlr => { f with sctlr := a }
  | .vbar => { f with vbar := a }

/-- The six values in the fixed order. -/
def toList (f : PerRegister α) : List α := Register.all.map f.get

@[simp] theorem get_all (a : α) (r : Register) : (all a).get r = a := by cases r <;> rfl

@[simp] theorem get_set_self (f : PerRegister α) (r : Register) (a : α) :
    (f.set r a).get r = a := by cases r <;> rfl

theorem get_set_of_ne (f : PerRegister α) {r s : Register} (h : s ≠ r) (a : α) :
    (f.set r a).get s = f.get s := by cases r <;> cases s <;> first | rfl | exact absurd rfl h

theorem ext_get {f g : PerRegister α} (h : ∀ r, f.get r = g.get r) : f = g := by
  have := h .mair; have := h .tcr; have := h .ttbr0
  have := h .ttbr1; have := h .sctlr; have := h .vbar
  cases f; cases g; simp_all [get]

end PerRegister

end HighHalf
