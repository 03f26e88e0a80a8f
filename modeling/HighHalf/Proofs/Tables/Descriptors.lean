import HighHalf.Proofs.Tables.Passes

/-!
# What a descriptor can be taken for

A leaf and a table descriptor are told apart by single bits, and both are read back as what they
were made from. A table descriptor has no bit that means something in a leaf only: one such bit
that is changed, wherever in a tree it is, is met by every walk that comes by, and none goes past
it.

## Main definitions

* `Word.bit`, `Entry.flip`: one bit of a word, and a descriptor with one bit changed
* `Entry.Maps`, `Entry.Links`: what a descriptor is read as
* `Memory.HaltsAt`: the walks for an address stop at an entry

## Main results

* `Entry.not_isTable_flip`: a table with a bit of a leaf is none, but is still valid
* `Memory.haltsAt_of_flip`: whoever meets it stops there
-/

namespace HighHalf

/-! ## Bits -/

namespace Word

/-- Bit `i` of a word. -/
def bit (w : Word) (i : Nat) : Bool := w.toNat.testBit i

theorem bit_and (a b : Word) (i : Nat) : (a &&& b).bit i = (a.bit i && b.bit i) := by
  rw [bit, UInt64.toNat_and, Nat.testBit_and]
  rfl

theorem bit_or (a b : Word) (i : Nat) : (a ||| b).bit i = (a.bit i || b.bit i) := by
  rw [bit, UInt64.toNat_or, Nat.testBit_or]
  rfl

theorem bit_xor (a b : Word) (i : Nat) : (a ^^^ b).bit i = (a.bit i ^^ b.bit i) := by
  rw [bit, UInt64.toNat_xor, Nat.testBit_xor]
  rfl

@[simp] theorem bit_zero (i : Nat) : (0 : Word).bit i = false := Nat.zero_testBit i

theorem bit_of_le (w : Word) {i : Nat} (hi : 64 ≤ i) : w.bit i = false :=
  Nat.testBit_lt_two_pow (Nat.lt_of_lt_of_le w.toNat_lt (Nat.pow_le_pow_right (by decide) hi))

theorem bit_one_shift {b : Nat} (hb : b < 64) (i : Nat) :
    bit (1 <<< UInt64.ofNat b) i = decide (b = i) := by
  have hsmall : 2 ^ b < 2 ^ 64 := Nat.pow_lt_pow_right (by decide) hb
  have hnum : (1 <<< UInt64.ofNat b : Word).toNat = 2 ^ b := by
    rw [UInt64.toNat_shiftLeft, UInt64.toNat_ofNat_of_lt' (Nat.lt_trans hb (by decide)),
      Nat.mod_eq_of_lt hb, show (1 : Word).toNat = 1 from rfl, Nat.one_shiftLeft,
      Nat.mod_eq_of_lt hsmall]
  rw [bit, hnum, Nat.testBit_two_pow]

end Word

/-! ## Descriptors by their bits -/

namespace Entry

variable {e : Entry} {p : PhysAddr} {f : Flags} {b i : Nat}

/-- The descriptor with bit `b` changed. -/
def flip (e : Entry) (b : Nat) : Entry := ⟨e.raw ^^^ (1 <<< UInt64.ofNat b)⟩

/-- The descriptor is read as the leaf that shows the frame at `p` with the flag word `f`. -/
structure Maps (e : Entry) (p : PhysAddr) (f : Flags) : Prop where
  valid : e.isValid = true
  leaf : e.isLeaf = true
  not_table : e.isTable = false
  addr : e.addr = p
  flags : e.flags = f

/-- The descriptor is read as the link to the table at `p`, and says nothing else. -/
structure Links (e : Entry) (p : PhysAddr) : Prop where
  valid : e.isValid = true
  table : e.isTable = true
  not_leaf : e.isLeaf = false
  addr : e.addr = p
  flags : e.flags = .page

theorem isTable_iff : e.isTable = true ↔
    e.raw &&& Flags.page.bits = Flags.page.bits ∧ e.raw &&& Flags.leafOnly.bits = 0 := by
  rw [isTable, Bool.and_eq_true, decide_eq_true_iff, decide_eq_true_iff]

/-- A table has every bit of its kind. -/
theorem bit_of_kind (h : e.isTable = true) (hi : Flags.page.bits.bit i = true) :
    e.raw.bit i = true := by
  have hbit := congrArg (Word.bit · i) (isTable_iff.1 h).1
  simpa only [Word.bit_and, hi, Bool.and_true] using hbit

/-- A table has no bit of a leaf. -/
theorem bit_of_leafOnly (h : e.isTable = true) (hi : Flags.leafOnly.bits.bit i = true) :
    e.raw.bit i = false := by
  have hbit := congrArg (Word.bit · i) (isTable_iff.1 h).2
  simpa only [Word.bit_and, hi, Bool.and_true, Word.bit_zero] using hbit

theorem isValid_of_bit (h : e.raw.bit 0 = true) : e.isValid = true := by
  rw [isValid, decide_eq_true_iff]
  intro hzero
  have hvalid : Flags.valid.bits.bit 0 = true := by decide
  have hbit := congrArg (Word.bit · 0) hzero
  simp only [Word.bit_and, h, hvalid, Bool.and_true, Word.bit_zero] at hbit
  cases hbit

theorem isValid_of_isTable (h : e.isTable = true) : e.isValid = true :=
  isValid_of_bit (bit_of_kind h (by decide))

theorem not_isLeaf_of_isTable (h : e.isTable = true) : e.isLeaf = false := by
  cases hleaf : e.isLeaf with
  | false => rfl
  | true => rw [isTable_of_isLeaf hleaf] at h; cases h

/-! ## A bit of a leaf in a table -/

theorem lt_of_leafOnly (hb : Flags.leafOnly.bits.bit b = true) : b < 64 := by
  by_contra hlt
  rw [Word.bit_of_le _ (Nat.not_lt.1 hlt)] at hb
  cases hb

theorem bit_flip (hb : b < 64) (i : Nat) :
    (e.flip b).raw.bit i = (e.raw.bit i ^^ decide (b = i)) := by
  rw [flip, Word.bit_xor, Word.bit_one_shift hb]

/-- With any bit of a leaf a table is none. -/
theorem not_isTable_flip (h : e.isTable = true) (hb : Flags.leafOnly.bits.bit b = true) :
    (e.flip b).isTable = false := by
  have hset : (e.flip b).raw.bit b = true := by
    rw [bit_flip (lt_of_leafOnly hb), bit_of_leafOnly h hb, decide_eq_true rfl, Bool.false_xor]
  by_contra htable
  rw [Bool.not_eq_false] at htable
  rw [bit_of_leafOnly htable hb] at hset
  cases hset

/-- It is still valid, so it stands in the way. -/
theorem isValid_flip (h : e.isTable = true) (hb : Flags.leafOnly.bits.bit b = true) :
    (e.flip b).isValid = true := by
  refine isValid_of_bit ?_
  have hne : b ≠ 0 := by
    rintro rfl
    exact absurd hb (by decide)
  rw [bit_flip (lt_of_leafOnly hb), bit_of_kind h (by decide), decide_eq_false hne, Bool.xor_false]

/-! ## Made and read back -/

theorem maps_toLeaf (ha : p.num % 4096 = 0) (hp : p.num < 2 ^ 48) (hf : Complete f) :
    ∃ e, leaf p f = .ok e ∧ e.Maps p f := by
  have hleaf : (toLeaf ⟨p.val &&& addressMask⟩ f).isLeaf = true := isLeaf_toLeaf hf
  refine ⟨_, leaf_eq ha hf, isValid_of_isLeaf hleaf, hleaf, isTable_of_isLeaf hleaf, ?_,
    flags_toLeaf hf⟩
  rw [addr_toLeaf hf, and_addressMask ha hp]

theorem flags_toTable (ha : p.num % 4096 = 0) (hp : p.num < 2 ^ 48) :
    (toTable p).flags = .page := by
  have hkind : Flags.page.bits &&& ~~~addressMask = Flags.page.bits := by decide
  show Flags.mk ((p.val ||| Flags.page.bits) &&& ~~~addressMask) = .page
  rw [Word.or_and_distrib, hkind, ← and_addressMask ha hp, UInt64.and_assoc, UInt64.and_not_self,
    UInt64.and_zero, UInt64.zero_or]

theorem links_toTable (ha : p.num % 4096 = 0) (hp : p.num < 2 ^ 48) :
    ∃ e, table p = .ok e ∧ e.Links p := by
  have htable : (toTable p).isTable = true := isTable_toTable ha hp
  exact ⟨_, table_eq ha hp, isValid_of_isTable htable, htable, not_isLeaf_of_isTable htable,
    addr_toTable ha hp, flags_toTable ha hp⟩

theorem num_addr_lt (e : Entry) : e.addr.num < 2 ^ 48 := by
  have hnum : e.addr.num = e.raw.toNat % 2 ^ 48 / 4096 * 4096 := Word.toNat_and_addressMask e.raw
  omega

/-- A leaf is made from its own address and flags. -/
theorem leaf_addr_flags (h : e.isLeaf = true) : leaf e.addr e.flags = .ok e := by
  rw [leaf_eq ((e.addr.aligned_iff).1 e.aligned_addr) (complete_flags h), toLeaf_addr_flags]

/-- Every bit belongs to the address, to the kind or to leaves, or is one of thirteen that mean
nothing to the kernel. -/
theorem bit_cases {i : Nat} (hi : i < 64) :
    addressMask.bit i = true ∨ Flags.page.bits.bit i = true ∨ Flags.leafOnly.bits.bit i = true ∨
      48 ≤ i ∧ i ≤ 51 ∨ 55 ≤ i ∧ i ≤ 63 := by
  revert i
  decide

/-- A table differs from the descriptor made for its address in bits without meaning at most. -/
theorem bit_toTable_addr (h : e.isTable = true)
    (hne : e.raw.bit i ≠ (toTable e.addr).raw.bit i) : 48 ≤ i ∧ i ≤ 51 ∨ 55 ≤ i ∧ i ≤ 63 := by
  have hlt : i < 64 := by
    by_contra hle
    rw [Word.bit_of_le _ (Nat.not_lt.1 hle), Word.bit_of_le _ (Nat.not_lt.1 hle)] at hne
    exact hne rfl
  have hraw : (toTable e.addr).raw.bit i =
      (e.raw.bit i && addressMask.bit i || Flags.page.bits.bit i) := by
    rw [toTable, Word.bit_or, addr, Word.bit_and]
  rw [hraw] at hne
  have hapart : ∀ j < 64, Flags.page.bits.bit j = true → Flags.leafOnly.bits.bit j = false := by
    decide
  rcases bit_cases hlt with haddr | hkind | hleaf | hspare
  · cases hkind : Flags.page.bits.bit i with
    | false => rw [haddr, hkind, Bool.and_true, Bool.or_false] at hne; exact absurd rfl hne
    | true => rw [bit_of_kind h hkind, haddr, hkind] at hne; exact absurd rfl hne
  · rw [bit_of_kind h hkind, hkind, Bool.or_true] at hne
    exact absurd rfl hne
  · have hkind : Flags.page.bits.bit i = false := by
      by_contra hset
      rw [hapart i hlt (by simpa using hset)] at hleaf
      cases hleaf
    rw [bit_of_leafOnly h hleaf, hkind] at hne
    exact absurd rfl hne
  · exact hspare

end Entry

/-! ## Walks that stop -/

namespace Memory

open Tables

variable {m m' : Memory} {root t u : PhysAddr} {v : VirtAddr} {b i j k n : Nat} {e : Entry}

/-- The walk for `v` gets to the table `t` of level `k` and stops at its entry: no table is found
further down, no leaf is looked up or emptied, and nothing is made. -/
structure HaltsAt (m : Memory) (root : PhysAddr) (v : VirtAddr) (k : Nat) (t : PhysAddr) :
    Prop where
  reached : descend m.board.ram m.frames.window v root 0 k = some t
  below : ∀ n, k < n → n ≤ 3 → descend m.board.ram m.frames.window v root 0 n = none
  lookup : m.lookup root v = .empty
  resolve : Tables.resolve m.board.ram m.frames.window root v = none
  unmap : (Memory.request (unmapPage m.frames.window root v)).run m = .ok (.error .unmapped) m
  make : (makeLeafTable root v).run m = .ok (.error .blocked) (m.noted .warn .tables
    s!"L{k} entry {v.slot k} for {v} is not a table: {(m.entry t (v.slot k)).describe}")

theorem descend_of_reaches (h : Reaches m root (v.trail k) t) (hk : k ≤ 3) :
    descend m.board.ram m.frames.window v root 0 k = some t := by
  have hroot : Reaches m root (v.trail 0) root := Reaches.root
  refine (descend_eq_some_iff hroot (by omega)).2 ?_
  rwa [Nat.zero_add]

/-- A valid entry that is no table is where every walk that gets to it stops. -/
theorem haltsAt_of_blocked (hk : k < 3) (hr : Reaches m root (v.trail k) t)
    (hvalid : (m.entry t (v.slot k)).isValid = true)
    (htable : (m.entry t (v.slot k)).isTable = false) : HaltsAt m root v k t := by
  have hroot : Reaches m root (v.trail 0) root := Reaches.root
  have hbelow : ∀ n, k < n → n ≤ 3 → ∀ u, ¬ Reaches m root (v.trail n) u := by
    intro n hkn hn u hu
    rw [show n = k + 1 + (n - (k + 1)) by omega] at hu
    obtain ⟨t₁, ht₁⟩ := hu.upTo
    obtain ⟨t₀, ht₀, htable₀⟩ := ht₁.above
    rw [← hr.inj ht₀, htable] at htable₀
    cases htable₀
  have hlookup : m.lookup root v = .empty := lookup_of_not_reaches (hbelow 3 hk (Nat.le_refl 3))
  constructor
  case reached => exact descend_of_reaches hr (Nat.le_of_lt hk)
  case below =>
    intro n hkn hn
    rw [Option.eq_none_iff_forall_ne_some]
    intro u hu
    rw [descend_eq_some_iff hroot (by omega), Nat.zero_add] at hu
    exact hbelow n hkn hn u hu
  case lookup => exact hlookup
  case resolve =>
    have hempty : Tables.lookup m.board.ram m.frames.window root v = .empty := hlookup
    rw [resolve, hempty]
    rfl
  case unmap =>
    rcases unmapPage_cases m root v with ⟨hrun, -⟩ | ⟨u, -, hu, -⟩
    · exact hrun
    · exact absurd hu (hbelow 3 hk (Nat.le_refl 3) u)
  case make =>
    have hr' : Reaches m root (v.trail (0 + k)) t := by rwa [Nat.zero_add]
    have hrest := run_descendMaking_along hroot hr' (by omega) (2 - k + 1)
    rw [Nat.zero_add, show k + (2 - k + 1) = 3 by omega] at hrest
    exact hrest.trans (run_descendMaking_blocked hvalid htable)

/-- One bit of a leaf in a table that a walk goes along makes every walk stop there. -/
theorem haltsAt_of_flip (hk : k < 3) (hr : Reaches m root (v.trail k) t) (he : e.isTable = true)
    (hb : Flags.leafOnly.bits.bit b = true) (hentry : m.entry t (v.slot k) = e.flip b) :
    HaltsAt m root v k t :=
  haltsAt_of_blocked hk hr (by rw [hentry]; exact Entry.isValid_flip he hb)
    (by rw [hentry]; exact Entry.not_isTable_flip he hb)

theorem Reaches.aligned (h : Reaches m root path t) (hroot : root.num % 4096 = 0) :
    t.num % 4096 = 0 := by
  cases h with
  | root => exact hroot
  | link _ _ _ _ => exact ((Entry.addr _).aligned_iff).1 (Entry.aligned_addr _)

/-- The walk for `v` goes along tables in RAM to the table `t` of level `k`, and past it. -/
structure GoesPast (m : Memory) (root : PhysAddr) (v : VirtAddr) (k : Nat) (t : PhysAddr) :
    Prop where
  level : k < 3
  shows : m.board.ram.Shows m.frames.window
  aligned : root.num % 4096 = 0
  has : ∀ j ≤ k, ∀ u, Reaches m root (v.trail j) u → m.board.ram.Has u.num 4096
  reached : Reaches m root (v.trail k) t
  table : (m.entry t (v.slot k)).isTable = true

/-- The entry on the way is followed. -/
theorem GoesPast.followed (h : GoesPast m root v k t) :
    descend m.board.ram m.frames.window v root 0 (k + 1) = some (m.entry t (v.slot k)).addr := by
  have hlen : (v.trail k).length < 3 := by
    rw [VirtAddr.length_trail]
    exact h.level
  exact descend_of_reaches (h.reached.link hlen (v.slot_lt k) h.table) h.level

/-- When the entry is replaced, the walk still gets to it. It may get to it earlier than before,
for a table can be on the way twice. -/
theorem GoesPast.met (h : GoesPast m root v k t) (hin : Installs m m' t (v.slot k) e) :
    ∃ j ≤ k, v.slot j = v.slot k ∧ Reaches m' root (v.trail j) t := by
  have hstep : ∀ j ≤ k, ∀ u, Reaches m root (v.trail j) u → Reaches m' root (v.trail j) u ∨
      ∃ i < j, v.slot i = v.slot k ∧ Reaches m' root (v.trail i) t := by
    intro j
    induction j with
    | zero =>
      intro _ u hu
      cases hu
      exact Or.inl Reaches.root
    | succ j ih =>
      intro hj u hu
      rw [VirtAddr.trail] at hu
      cases hu with
      | @link _ s _ hs hlen hi htable =>
        rcases ih (by omega) s hs with hs' | ⟨i, hij, hslot, hi⟩
        · by_cases hsame : s = t ∧ v.slot j = v.slot k
          · exact Or.inr ⟨j, Nat.lt_succ_self j, hsame.2, hsame.1 ▸ hs'⟩
          · have hentry : m'.entry s (v.slot j) = m.entry s (v.slot j) := by
              rw [entry, hin.ram, hin.frames]
              exact entry_setWord_of_ne h.shows (h.has k (Nat.le_refl k) t h.reached)
                (h.has j (by omega) s hs) (h.reached.aligned h.aligned) (hs.aligned h.aligned)
                (v.slot_lt k) hi (by tauto) e.raw
            rw [← hentry] at htable ⊢
            exact Or.inl (hs'.link hlen hi htable)
        · exact Or.inr ⟨i, by omega, hslot, hi⟩
  rcases hstep k (Nat.le_refl k) t h.reached with hr | ⟨i, hi, hslot, hr⟩
  · exact ⟨k, Nat.le_refl k, rfl, hr⟩
  · exact ⟨i, Nat.le_of_lt hi, hslot, hr⟩

/-- Memory after `e` was stored as entry `i` of the table at `t`. -/
def withEntry (m : Memory) (t : PhysAddr) (i : Nat) (e : Entry) : Memory :=
  m.stored (.word (entryPlace m.frames.window t i) e.raw)

theorem installs_withEntry : Installs m (m.withEntry t i e) t i e where
  frames := by rw [withEntry, stored]
  ram := by rw [withEntry, stored, Board.stored, Store.apply]

theorem entry_withEntry (hw : m.board.ram.Shows m.frames.window)
    (ht : m.board.ram.Has t.num 4096) (hi : i < 512) : (m.withEntry t i e).entry t i = e := by
  rw [entry, installs_withEntry.ram, installs_withEntry.frames]
  exact entry_setWord_self hw ht hi e.raw

/-- Memory after bit `b` of entry `i` of the table at `t` was changed. -/
def flipped (m : Memory) (t : PhysAddr) (i b : Nat) : Memory :=
  m.withEntry t i ((m.entry t i).flip b)

/-- One bit of a leaf is enough, wherever on its way the walk meets it. -/
theorem GoesPast.haltsAt (h : GoesPast m root v k t) (hb : Flags.leafOnly.bits.bit b = true) :
    ∃ j ≤ k, v.slot j = v.slot k ∧ HaltsAt (m.flipped t (v.slot k) b) root v j t := by
  have hin : Installs m (m.flipped t (v.slot k) b) t (v.slot k)
      ((m.entry t (v.slot k)).flip b) := installs_withEntry
  obtain ⟨j, hj, hslot, hr⟩ := h.met hin
  have hlevel := h.level
  have hself : (m.flipped t (v.slot k) b).entry t (v.slot k) = (m.entry t (v.slot k)).flip b :=
    entry_withEntry h.shows (h.has k (Nat.le_refl k) t h.reached) (v.slot_lt k)
  refine ⟨j, hj, hslot, haltsAt_of_flip (by omega) hr h.table hb ?_⟩
  rw [hslot, hself]

end Memory

/-! ## All together -/

open Memory Tables in
/-- Descriptors are read as what they were made from and as nothing else. A table in which one bit
of a leaf was changed, found in memory or changed there, is followed by no walk. -/
theorem descriptors_unambiguous :
    (∀ (p : PhysAddr) (f : Flags), p.num % 4096 = 0 → p.num < 2 ^ 48 → Entry.Complete f →
      ∃ e, Entry.leaf p f = .ok e ∧ e.Maps p f) ∧
    (∀ p : PhysAddr, p.num % 4096 = 0 → p.num < 2 ^ 48 →
      ∃ e, Entry.table p = .ok e ∧ e.Links p) ∧
    (∀ e : Entry, ¬ (e.isTable = true ∧ e.isLeaf = true) ∧
      (e.isLeaf = true → Entry.leaf e.addr e.flags = .ok e) ∧
      (e.isTable = true → ∃ made, Entry.table e.addr = .ok made ∧
        ∀ i, e.raw.bit i ≠ made.raw.bit i → 48 ≤ i ∧ i ≤ 51 ∨ 55 ≤ i ∧ i ≤ 63)) ∧
    (∀ (m : Memory) (root t : PhysAddr) (v : VirtAddr) (k b : Nat) (e : Entry), k < 3 →
      Reaches m root (v.trail k) t → e.isTable = true → Flags.leafOnly.bits.bit b = true →
      m.entry t (v.slot k) = e.flip b → HaltsAt m root v k t) ∧
    (∀ (m : Memory) (root t : PhysAddr) (v : VirtAddr) (k b : Nat), GoesPast m root v k t →
      Flags.leafOnly.bits.bit b = true →
      descend m.board.ram m.frames.window v root 0 (k + 1) = some (m.entry t (v.slot k)).addr ∧
        ∃ j ≤ k, v.slot j = v.slot k ∧ HaltsAt (m.flipped t (v.slot k) b) root v j t) := by
  refine ⟨fun p f ha hp hf => Entry.maps_toLeaf ha hp hf,
    fun p ha hp => Entry.links_toTable ha hp, fun e => ⟨?_, Entry.leaf_addr_flags, fun h => ?_⟩,
    fun m root t v k b e hk hr he hb hentry => haltsAt_of_flip hk hr he hb hentry,
    fun m root t v k b h hb => ⟨h.followed, h.haltsAt hb⟩⟩
  · rintro ⟨htable, hleaf⟩
    rw [Entry.isTable_of_isLeaf hleaf] at htable
    cases htable
  · refine ⟨.toTable e.addr, ?_, fun i hne => Entry.bit_toTable_addr h hne⟩
    exact Entry.table_eq ((e.addr.aligned_iff).1 e.aligned_addr) e.num_addr_lt

/-- The small store with a table that is linked from its own first entry. -/
def Memory.looped : Memory :=
  sample.withEntry ⟨0x40005000⟩ 0 (.toTable ⟨0x40005000⟩)

/-- The walk for the first page goes round in the looped table. -/
theorem Memory.goesPast_looped : GoesPast looped ⟨0x40005000⟩ ⟨0⟩ 1 ⟨0x40005000⟩ := by
  have hsize : sample.board.ram.size = 4096 * 64 := size_zeroBytes _
  have hbank : Ram.SameBank sample.board.ram looped.board.ram := Ram.sameBank_setWord ..
  have hhas : sample.board.ram.Has (PhysAddr.num ⟨0x40005000⟩) 4096 := by
    rw [Ram.Has, hsize]
    decide
  have hentry : looped.entry ⟨0x40005000⟩ 0 = .toTable ⟨0x40005000⟩ :=
    entry_withEntry unset_sample.shows hhas (by decide)
  have hlink : Reaches looped ⟨0x40005000⟩ [0] ⟨0x40005000⟩ := by
    have hroot : Reaches looped ⟨0x40005000⟩ [] ⟨0x40005000⟩ := .root
    have h := hroot.link (i := 0) (by decide) (by decide) (by rw [hentry]; decide)
    rwa [hentry, show (Entry.toTable ⟨0x40005000⟩).addr = ⟨0x40005000⟩ by decide] at h
  refine ⟨by decide, hbank.shows unset_sample.shows, by decide, fun j hj u hu => ?_, hlink, ?_⟩
  · have hroot : u = ⟨0x40005000⟩ := by
      rcases Nat.le_one_iff_eq_zero_or_eq_one.1 hj with rfl | rfl
      · exact Reaches.inj hu Reaches.root
      · exact Reaches.inj hu hlink
    rw [hroot, hbank.has]
    exact hhas
  · exact (congrArg Entry.isTable hentry).trans (by decide)

theorem descriptors_unambiguous_sample :
    (∃ e, Entry.leaf ⟨0x40010000⟩ .data = .ok e ∧ e.Maps ⟨0x40010000⟩ .data) ∧
    (∃ e, Entry.table ⟨0x40005000⟩ = .ok e ∧ e.Links ⟨0x40005000⟩) ∧
    (∃ made, Entry.table (Entry.addr ⟨0x80000040005003⟩) = .ok made ∧
      ∀ i, Word.bit 0x80000040005003 i ≠ made.raw.bit i → 48 ≤ i ∧ i ≤ 51 ∨ 55 ≤ i ∧ i ≤ 63) ∧
    ∃ j ≤ 1, Memory.HaltsAt (Memory.looped.flipped ⟨0x40005000⟩ 0 10) ⟨0x40005000⟩ ⟨0⟩ j
      ⟨0x40005000⟩ := by
  obtain ⟨hmaps, hlinks, hread, -, hwalk⟩ := descriptors_unambiguous
  obtain ⟨-, j, hj, -, hhalts⟩ :=
    hwalk Memory.looped ⟨0x40005000⟩ ⟨0x40005000⟩ ⟨0⟩ 1 10 Memory.goesPast_looped (by decide)
  exact ⟨hmaps _ _ (by decide) (by decide) (by decide), hlinks _ (by decide) (by decide),
    (hread ⟨0x80000040005003⟩).2.2 (by decide), j, hj, hhalts⟩

end HighHalf
