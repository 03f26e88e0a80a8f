import Mathlib.Tactic.Ring
import HighHalf.Address.Range
import HighHalf.Descriptor.Entry

/-!
# Masks as arithmetic

Addresses and descriptors are taken apart with masks. Here each mask is read as arithmetic on
the numbers the words stand for: rounding is division by the page size, canonical form is a
remainder, and a descriptor is the sum of an address and a flag word.
-/

namespace HighHalf

namespace Word

/-- Keeping the `k` bits from bit `s` on. -/
theorem and_field (x k s : Nat) : x &&& ((2 ^ k - 1) <<< s) = x / 2 ^ s % 2 ^ k * 2 ^ s := by
  rw [← Nat.shiftRight_eq_div_pow, ← Nat.shiftLeft_eq]
  apply Nat.eq_of_testBit_eq
  intro i
  simp only [Nat.testBit_and, Nat.testBit_shiftLeft, Nat.testBit_two_pow_sub_one,
    Nat.testBit_mod_two_pow, Nat.testBit_shiftRight]
  by_cases h : s ≤ i
  · simp [h, Bool.and_comm]
  · simp [h]

/-- Setting all bits from bit `s` up to bit `n`. -/
theorem or_top {x s n : Nat} (hx : x < 2 ^ n) (hs : s ≤ n) :
    x ||| (2 ^ n - 2 ^ s) = x % 2 ^ s + (2 ^ n - 2 ^ s) := by
  have htop : 2 ^ n - 2 ^ s = 2 ^ s * (2 ^ (n - s) - 1) := by
    rw [Nat.mul_sub, ← Nat.pow_add, Nat.add_sub_cancel' hs, Nat.mul_one]
  have hlow : x % 2 ^ s < 2 ^ s := Nat.mod_lt _ (Nat.two_pow_pos s)
  rw [htop, Nat.add_comm, Nat.two_pow_add_eq_or_of_lt hlow]
  apply Nat.eq_of_testBit_eq
  intro i
  simp only [Nat.testBit_or, Nat.testBit_two_pow_mul, Nat.testBit_two_pow_sub_one,
    Nat.testBit_mod_two_pow]
  by_cases hi : i < s
  · have : ¬ s ≤ i := by omega
    simp [hi, this]
  · have hsi : s ≤ i := by omega
    by_cases hn : i < n
    · have : i - s < n - s := by omega
      simp [hi, hsi, this]
    · have : ¬ i - s < n - s := by omega
      have hbit : x.testBit i = false := by
        refine Nat.testBit_lt_two_pow (Nat.lt_of_lt_of_le hx ?_)
        exact Nat.pow_le_pow_right (by omega) (by omega)
      simp [hi, this, hbit]

theorem toNat_and_pageMask (w : Word) : (w &&& pageMask).toNat = w.toNat % 4096 := by
  rw [UInt64.toNat_and]
  exact Nat.and_two_pow_sub_one_eq_mod w.toNat 12

theorem toNat_and_not_pageMask (w : Word) :
    (w &&& ~~~pageMask).toNat = w.toNat / 4096 * 4096 := by
  have hw := w.toNat_lt
  have h := and_field w.toNat 52 12
  have hm : (~~~pageMask).toNat = (2 ^ 52 - 1) <<< 12 := by decide
  rw [UInt64.toNat_and, hm, h]
  omega

theorem toNat_and_addressMask (w : Word) :
    (w &&& Entry.addressMask).toNat = w.toNat % 2 ^ 48 / 4096 * 4096 := by
  have h := and_field w.toNat 36 12
  have hm : Entry.addressMask.toNat = (2 ^ 36 - 1) <<< 12 := by decide
  rw [UInt64.toNat_and, hm, h]
  omega

theorem or_and_distrib (a b c : Word) : (a ||| b) &&& c = (a &&& c) ||| (b &&& c) := by
  apply UInt64.toNat_inj.1
  simp only [UInt64.toNat_and, UInt64.toNat_or]
  exact Nat.and_or_distrib_right ..

theorem or_and_self (a b : Word) : (a ||| b) &&& b = b := by
  apply UInt64.toNat_inj.1
  apply Nat.eq_of_testBit_eq
  intro i
  simp only [UInt64.toNat_and, UInt64.toNat_or, Nat.testBit_and, Nat.testBit_or]
  cases a.toNat.testBit i <;> cases b.toNat.testBit i <;> rfl

/-- A word is the bits under a mask and the bits beside it. -/
theorem and_or_and_not (w m : Word) : (w &&& m) ||| (w &&& ~~~m) = w := by
  apply UInt64.toBitVec_inj.1
  apply BitVec.eq_of_getLsbD_eq
  intro i hi
  simp only [UInt64.toBitVec_or, UInt64.toBitVec_and, UInt64.toBitVec_not, BitVec.getLsbD_or,
    BitVec.getLsbD_and, BitVec.getLsbD_not, hi, decide_true, Bool.true_and]
  cases w.toBitVec.getLsbD i <;> cases m.toBitVec.getLsbD i <;> rfl

/-- A sum that fits is the wrapped one. -/
theorem add_of_lt {a b : Word} (h : a.toNat + b.toNat < 2 ^ 64) : add a b = .ok (a + b) := by
  rw [add_eq_ok_iff, UInt64.toNat_add]
  omega

/-- A sum that leaves 64 bits is fatal. -/
theorem add_of_le {a b : Word} (h : 2 ^ 64 ≤ a.toNat + b.toNat) :
    add a b = .error .addOverflow := by
  rw [add, add?_eq_none_iff.2 h]

end Word

/-! ## Physical addresses -/

namespace PhysAddr

/-- The number of an address. -/
def num (p : PhysAddr) : Nat := p.val.toNat

@[simp] theorem num_mk (w : Word) : num ⟨w⟩ = w.toNat := rfl

theorem num_lt (p : PhysAddr) : p.num < 2 ^ 64 := p.val.toNat_lt

theorem num_inj {p q : PhysAddr} (h : p.num = q.num) : p = q := by
  cases p; cases q
  rw [PhysAddr.mk.injEq]
  exact UInt64.toNat_inj.1 h

theorem aligned_iff (p : PhysAddr) : p.aligned = true ↔ p.num % 4096 = 0 := by
  rw [aligned, decide_eq_true_iff, ← UInt64.toNat_inj, Word.toNat_and_pageMask]
  rfl

theorem num_floor (p : PhysAddr) : p.floor.num = p.num / 4096 * 4096 :=
  Word.toNat_and_not_pageMask p.val

theorem num_ceil {p q : PhysAddr} (h : p.ceil = .ok q) :
    q.num = (p.num + 4095) / 4096 * 4096 := by
  unfold ceil at h
  cases hadd : Word.add p.val pageMask with
  | error e => rw [hadd] at h; cases h
  | ok s =>
    rw [hadd] at h
    cases h
    rw [Word.add_eq_ok_iff] at hadd
    have hm : pageMask.toNat = 4095 := rfl
    rw [num_mk, Word.toNat_and_not_pageMask, hadd, hm]
    rfl

theorem num_add {p q : PhysAddr} {n : Word} (h : p.add n = .ok q) :
    q.num = p.num + n.toNat := by
  unfold add at h
  cases hadd : Word.add p.val n with
  | error e => rw [hadd] at h; cases h
  | ok s =>
    rw [hadd] at h
    cases h
    exact Word.add_eq_ok_iff.1 hadd

theorem add_of_lt {p : PhysAddr} {n : Word} (h : p.num + n.toNat < 2 ^ 64) :
    p.add n = .ok ⟨p.val + n⟩ := by
  rw [add, Word.add_of_lt h]
  rfl

theorem add_of_le {p : PhysAddr} {n : Word} (h : 2 ^ 64 ≤ p.num + n.toNat) :
    p.add n = .error .addOverflow := by
  rw [add, Word.add_of_le h]
  rfl

theorem exists_ceil {p : PhysAddr} (h : p.num + 4095 < 2 ^ 64) : ∃ q, p.ceil = .ok q := by
  have hmask : pageMask.toNat = 4095 := rfl
  refine ⟨⟨(p.val + pageMask) &&& ~~~pageMask⟩, ?_⟩
  rw [ceil, Word.add_of_lt (by rw [hmask]; exact h)]
  rfl

theorem ceil_of_le {p : PhysAddr} (h : 2 ^ 64 ≤ p.num + 4095) :
    p.ceil = .error .addOverflow := by
  have hmask : pageMask.toNat = 4095 := rfl
  rw [ceil, Word.add_of_le (by rw [hmask]; exact h)]
  rfl

end PhysAddr

/-! ## Virtual addresses -/

namespace VirtAddr

/-- The number of an address. -/
def num (v : VirtAddr) : Nat := v.val.toNat

@[simp] theorem num_mk (w : Word) : num ⟨w⟩ = w.toNat := rfl

theorem num_lt (v : VirtAddr) : v.num < 2 ^ 64 := v.val.toNat_lt

/-- The bits above bit 47 repeat it. -/
def Canonical (v : VirtAddr) : Prop := ofWord v.val = v

theorem num_inj {u v : VirtAddr} (h : u.num = v.num) : u = v := by
  cases u; cases v
  rw [VirtAddr.mk.injEq]
  exact UInt64.toNat_inj.1 h

theorem aligned_iff (v : VirtAddr) : v.aligned = true ↔ v.num % 4096 = 0 := by
  rw [aligned, decide_eq_true_iff, ← UInt64.toNat_inj, Word.toNat_and_pageMask]
  rfl

theorem num_ofWord (w : Word) :
    (ofWord w).num = if w.toNat % 2 ^ 48 < 2 ^ 47 then w.toNat % 2 ^ 48
      else w.toNat % 2 ^ 48 + (2 ^ 64 - 2 ^ 48) := by
  have hw := w.toNat_lt
  have hbit : ((w >>> 47) &&& 1 = 1) ↔ w.toNat / 2 ^ 47 % 2 = 1 := by
    rw [← UInt64.toNat_inj, UInt64.toNat_and, UInt64.toNat_shiftRight]
    rw [show (1 : UInt64).toNat = 1 from rfl, show (47 : UInt64).toNat % 64 = 47 from rfl,
      Nat.and_one_is_mod, Nat.shiftRight_eq_div_pow]
  unfold ofWord
  split
  · rename_i h
    rw [hbit] at h
    rw [if_neg (by omega)]
    have htop : (0xFFFF000000000000 : Word).toNat = 2 ^ 64 - 2 ^ 48 := by decide
    rw [num_mk, UInt64.toNat_or, htop]
    exact Word.or_top (x := w.toNat) (s := 48) hw (by omega)
  · rename_i h
    rw [hbit] at h
    rw [if_pos (by omega)]
    rw [num_mk, UInt64.toNat_and]
    exact Nat.and_two_pow_sub_one_eq_mod w.toNat 48

theorem canonical_iff (v : VirtAddr) :
    v.Canonical ↔ v.num < 2 ^ 47 ∨ 2 ^ 64 - 2 ^ 47 ≤ v.num := by
  have hv := v.num_lt
  have hnum : v.val.toNat = v.num := rfl
  constructor
  · intro h
    have hn := congrArg num h
    rw [num_ofWord, hnum] at hn
    split at hn <;> omega
  · intro h
    refine num_inj ?_
    rw [num_ofWord, hnum]
    split <;> omega

theorem canonical_ofWord (w : Word) : (ofWord w).Canonical := by
  rw [canonical_iff, num_ofWord]
  split <;> omega

theorem canonical_add (v : VirtAddr) (n : Word) : (v.add n).Canonical := canonical_ofWord _

theorem high_iff {v : VirtAddr} (h : v.Canonical) : v.high = true ↔ 2 ^ 64 - 2 ^ 47 ≤ v.num := by
  rw [canonical_iff] at h
  have hnum : v.val.toNat = v.num := rfl
  have hs : highHalfStart.toNat = 2 ^ 64 - 2 ^ 48 := by decide
  rw [high, decide_eq_true_iff, UInt64.le_iff_toNat_le, hs, hnum]
  omega

theorem page_eq (v : VirtAddr) : v.page = v.num / 4096 := by
  rw [page, UInt64.toNat_shiftRight, Nat.shiftRight_eq_div_pow]
  rfl

theorem num_inPage (v : VirtAddr) : v.inPage.toNat = v.num % 4096 :=
  Word.toNat_and_pageMask v.val

theorem num_floor {v : VirtAddr} (h : v.Canonical) : v.floor.num = v.num / 4096 * 4096 := by
  have hv := v.num_lt
  have hnum : v.val.toNat = v.num := rfl
  rw [canonical_iff] at h
  rw [floor, num_ofWord, Word.toNat_and_not_pageMask, hnum]
  split <;> omega

/-- Moving up inside one half of the address space. -/
theorem num_add {v : VirtAddr} {n : Word}
    (h : v.num + n.toNat < 2 ^ 47 ∨ 2 ^ 64 - 2 ^ 47 ≤ v.num ∧ v.num + n.toNat < 2 ^ 64) :
    (v.add n).num = v.num + n.toNat := by
  have hn := n.toNat_lt
  have hnum : v.val.toNat = v.num := rfl
  rw [add, num_ofWord, UInt64.toNat_add, hnum]
  split <;> omega

theorem num_identity {p : PhysAddr} (h : p.num < 2 ^ 47) : p.identity.num = p.num := by
  have hnum : p.val.toNat = p.num := rfl
  rw [PhysAddr.identity, num_ofWord, hnum]
  split <;> omega

theorem num_identity_mod (p : PhysAddr) : p.identity.num % 2 ^ 48 = p.num % 2 ^ 48 := by
  have hnum : p.val.toNat = p.num := rfl
  rw [PhysAddr.identity, num_ofWord, hnum]
  split <;> omega

/-- The high alias keeps the bits below bit 47. -/
theorem num_highAlias_mod (p : PhysAddr) :
    (p.highAlias highBase).num = 2 ^ 64 - 2 ^ 47 + p.num % 2 ^ 47 := by
  have hor : (p.val ||| highBase).toNat = p.num % 2 ^ 47 + (2 ^ 64 - 2 ^ 47) := by
    have hb : highBase.toNat = 2 ^ 64 - 2 ^ 47 := by decide
    rw [UInt64.toNat_or, hb]
    exact Word.or_top p.num_lt (by omega)
  rw [PhysAddr.highAlias, num_ofWord, hor]
  split <;> omega

theorem num_highAlias {p : PhysAddr} (h : p.num < 2 ^ 47) :
    (p.highAlias highBase).num = 2 ^ 64 - 2 ^ 47 + p.num := by
  rw [num_highAlias_mod, Nat.mod_eq_of_lt h]

end VirtAddr

/-! ## Descriptors -/

namespace Entry

@[simp] theorem raw_empty : empty.raw = 0 := rfl

@[simp] theorem isValid_empty : empty.isValid = false := by decide

@[simp] theorem isLeaf_empty : empty.isLeaf = false := by decide

/-- The descriptor that links the table at `next`: its address and the kind bits. -/
def toTable (next : PhysAddr) : Entry := ⟨next.val ||| Flags.page.bits⟩

/-- An address that a descriptor has room for. -/
theorem and_addressMask {p : PhysAddr} (ha : p.num % 4096 = 0) (hp : p.num < 2 ^ 48) :
    p.val &&& addressMask = p.val := by
  have hnum : p.val.toNat = p.num := rfl
  apply UInt64.toNat_inj.1
  rw [Word.toNat_and_addressMask, hnum]
  omega

theorem table_eq {p : PhysAddr} (ha : p.num % 4096 = 0) (hp : p.num < 2 ^ 48) :
    table p = .ok (toTable p) := by
  rw [table, if_pos ((p.aligned_iff).2 ha), and_addressMask ha hp]
  rfl

theorem isTable_toTable {p : PhysAddr} (ha : p.num % 4096 = 0) (hp : p.num < 2 ^ 48) :
    (toTable p).isTable = true := by
  have hkind : addressMask &&& Flags.page.bits = 0 := by decide
  have hleaf : addressMask &&& Flags.leafOnly.bits = 0 := by decide
  have hboth : Flags.page.bits &&& Flags.leafOnly.bits = 0 := by decide
  rw [isTable, toTable, ← and_addressMask ha hp]
  simp only [Word.or_and_distrib, UInt64.and_assoc, hkind, hleaf, hboth, UInt64.and_self,
    UInt64.and_zero, UInt64.or_zero, UInt64.zero_or, decide_true, Bool.and_self]

theorem addr_toTable {p : PhysAddr} (ha : p.num % 4096 = 0) (hp : p.num < 2 ^ 48) :
    (toTable p).addr = p := by
  have hkind : Flags.page.bits &&& addressMask = 0 := by decide
  refine PhysAddr.num_inj (congrArg UInt64.toNat ?_)
  show (p.val ||| Flags.page.bits) &&& addressMask = p.val
  rw [Word.or_and_distrib, hkind, UInt64.or_zero, and_addressMask ha hp]

/-- A complete leaf flag word without address bits, as the mapper asks for. -/
def Complete (f : Flags) : Prop := f.isLeaf = true ∧ f.bits &&& addressMask = 0

instance (f : Flags) : Decidable (Complete f) :=
  inferInstanceAs (Decidable (f.isLeaf = true ∧ f.bits &&& addressMask = 0))

/-- The leaf that shows the frame at `p` with the flag word `f`. -/
def toLeaf (p : PhysAddr) (f : Flags) : Entry := ⟨p.val ||| f.bits⟩

/-- The leaf as it is stored: the bits of the frame's address that have room. -/
theorem leaf_eq {p : PhysAddr} {f : Flags} (ha : p.num % 4096 = 0) (hf : Complete f) :
    leaf p f = .ok (toLeaf ⟨p.val &&& addressMask⟩ f) := by
  rw [leaf, (p.aligned_iff).2 ha, hf.1, if_neg (by simp), if_neg (by simp),
    if_neg (by simp [hf.2])]
  rfl

theorem flags_toLeaf {p : PhysAddr} {f : Flags} (hf : Complete f) :
    (toLeaf ⟨p.val &&& addressMask⟩ f).flags = f := by
  have hrest : f.bits &&& ~~~addressMask = f.bits := by
    have h := Word.and_or_and_not f.bits addressMask
    rwa [hf.2, UInt64.zero_or] at h
  show Flags.mk (((p.val &&& addressMask) ||| f.bits) &&& ~~~addressMask) = f
  rw [Word.or_and_distrib, UInt64.and_assoc, UInt64.and_not_self, UInt64.and_zero,
    UInt64.zero_or, hrest]

theorem isLeaf_toLeaf {p : PhysAddr} {f : Flags} (hf : Complete f) :
    (toLeaf ⟨p.val &&& addressMask⟩ f).isLeaf = true := by
  rw [isLeaf, flags_toLeaf hf]
  exact hf.1

theorem addr_toLeaf {p : PhysAddr} {f : Flags} (hf : Complete f) :
    (toLeaf ⟨p.val &&& addressMask⟩ f).addr = ⟨p.val &&& addressMask⟩ := by
  show PhysAddr.mk (((p.val &&& addressMask) ||| f.bits) &&& addressMask) = _
  rw [Word.or_and_distrib, hf.2, UInt64.or_zero, UInt64.and_assoc, UInt64.and_self]

/-- A descriptor is put together again from its address and its flags. -/
theorem toLeaf_addr_flags (e : Entry) : toLeaf ⟨e.addr.val &&& addressMask⟩ e.flags = e := by
  show Entry.mk (((e.raw &&& addressMask) &&& addressMask) ||| (e.raw &&& ~~~addressMask)) = e
  rw [UInt64.and_assoc, UInt64.and_self, Word.and_or_and_not]

/-- The flags of a leaf are a flag word that the mapper accepts. -/
theorem complete_flags {e : Entry} (h : e.isLeaf = true) : Complete e.flags := by
  refine ⟨h, ?_⟩
  show (e.raw &&& ~~~addressMask) &&& addressMask = 0
  rw [UInt64.and_assoc, UInt64.and_comm (~~~addressMask), UInt64.and_not_self, UInt64.and_zero]

theorem aligned_addr (e : Entry) : e.addr.aligned = true := by
  have hnum : e.addr.num = e.raw.toNat % 2 ^ 48 / 4096 * 4096 := Word.toNat_and_addressMask e.raw
  rw [PhysAddr.aligned_iff, hnum]
  exact Nat.mul_mod_left _ _

/-- A leaf is valid. -/
theorem isValid_of_isLeaf {e : Entry} (h : e.isLeaf = true) : e.isValid = true := by
  by_contra hv
  have hbit : e.raw &&& Flags.valid.bits = 0 := by simpa [isValid] using hv
  simp only [isLeaf, Flags.isLeaf, Flags.contains, Bool.and_eq_true, decide_eq_true_iff] at h
  have hpage : e.flags.bits &&& Flags.page.bits = Flags.page.bits := h.1
  have hraw : e.raw &&& Flags.page.bits = Flags.page.bits := by
    have hm : ~~~addressMask &&& Flags.page.bits = Flags.page.bits := by decide
    rwa [flags, UInt64.and_assoc, hm] at hpage
  have hvp : Flags.page.bits &&& Flags.valid.bits = Flags.valid.bits := by decide
  have hone : e.raw &&& Flags.valid.bits = Flags.valid.bits := by
    calc e.raw &&& Flags.valid.bits
        = e.raw &&& (Flags.page.bits &&& Flags.valid.bits) := by rw [hvp]
      _ = (e.raw &&& Flags.page.bits) &&& Flags.valid.bits := (UInt64.and_assoc ..).symm
      _ = Flags.valid.bits := by rw [hraw, hvp]
  rw [hbit] at hone
  exact absurd hone (by decide)

/-- A leaf is no table. -/
theorem isTable_of_isLeaf {e : Entry} (h : e.isLeaf = true) : e.isTable = false := by
  rw [isTable, Bool.and_eq_false_iff]
  right
  rw [decide_eq_false_iff_not]
  intro hleaf
  simp only [isLeaf, Flags.isLeaf, Flags.contains, Bool.and_eq_true, decide_eq_true_iff] at h
  have haccessed : e.flags.bits &&& Flags.accessed.bits = Flags.accessed.bits := h.2
  have hmask : ~~~addressMask &&& Flags.accessed.bits =
      Flags.leafOnly.bits &&& Flags.accessed.bits := by decide
  rw [flags, UInt64.and_assoc, hmask, ← UInt64.and_assoc, hleaf] at haccessed
  exact absurd haccessed (by decide)

end Entry

end HighHalf
