import Mathlib.Data.Finset.Max
import HighHalf.Proofs.Relocation.Pointers

/-!
# What the relocation table leaves

A table is accepted exactly if every record in it is a relative one for an aligned word of the data.
Once it is accepted it can be applied any number of times: each time every slot gets what the last
record for it says, and no other byte changes. The records are read while the slots are written, but
they lie apart from the data. So what is left depends on the last displacement alone.

Here the records are given by the bytes of the table, and not through a window.

## Main definitions

* `Relocations.listed`: a record of the table
* `Relocations.Applicable`: a record that can be applied again
* `Relocations.Reapplied`: what applying the table leaves
* `Relocations.Reapplies`: checking and applying, as often as one likes
-/

namespace HighHalf

namespace Relocations

variable {r s u : Ram} {w w' : Window} {t : Relocations} {data : PhysRange} {d d' : Word}
  {i j n : Nat} {b : Board} {rec : Reloc} {e : RelocError}

/-! ## The records -/

/-- The table begins at a word and is a whole number of records. -/
structure WholeRecords (t : Relocations) : Prop where
  size : (t.table.stop.num - t.table.start.num) % 24 = 0
  start : t.table.start.num % 8 = 0

/-- Record `i`, as the bytes of the table have it. -/
def listed (r : Ram) (t : Relocations) (i : Nat) : Reloc where
  offset := .ofNat (r.number (t.table.start.num + 24 * i) 8)
  info := .ofNat (r.number (t.table.start.num + (24 * i + 8)) 8)
  addend := .ofNat (r.number (t.table.start.num + (24 * i + 16)) 8)

/-- The slot is an aligned word inside the data. -/
structure InData (data : PhysRange) (rec : Reloc) : Prop where
  aligned : rec.slot.num % 8 = 0
  low : data.start.num ≤ rec.slot.num
  high : rec.slot.num + 8 ≤ data.stop.num

/-- The record is a relative one, by the low half of its information word, and its slot is an
aligned word inside the data. -/
structure Applicable (data : PhysRange) (rec : Reloc) : Prop where
  relative : rec.info.toNat % 2 ^ 32 = 1027
  slot : InData data rec

theorem word_listed (hw : r.Shows w) (ht : t.Apart r data) (hi : i < t.count) {k : Nat}
    (hk : k < 3) :
    r.word (w.reach t.table.start + UInt64.ofNat (24 * i) + UInt64.ofNat (8 * k)) =
      UInt64.ofNat (r.number (t.table.start.num + (24 * i + 8 * k)) 8) := by
  obtain ⟨hnum, hhas⟩ := has_record hw ht.stored hi hk
  apply UInt64.toNat_inj.1
  rw [reach_record, Ram.toNat_word hw (by rw [hnum]; exact hhas), hnum,
    UInt64.toNat_ofNat_of_lt' (Ram.number_lt ..)]

/-- Through every window the records are those that the bytes of the table say. -/
theorem record_eq_listed (hw : r.Shows w) (ht : t.Apart r data) (hi : i < t.count) :
    t.record r w i = t.listed r i := by
  have h0 := word_listed hw ht hi (k := 0) (by omega)
  have h1 := word_listed hw ht hi (k := 1) (by omega)
  have h2 := word_listed hw ht hi (k := 2) (by omega)
  rw [show UInt64.ofNat (8 * 0) = 0 from rfl, UInt64.add_zero] at h0
  rw [record, listed, Reloc.mk.injEq]
  exact ⟨h0, h1, h2⟩

theorem listed_congr (ht : t.Apart r data) (hsame : Ram.SameOutside r s data) (hi : i < t.count) :
    t.listed s i = t.listed r i := by
  have hnumber : ∀ k < 3, s.number (t.table.start.num + (24 * i + 8 * k)) 8 =
      r.number (t.table.start.num + (24 * i + 8 * k)) 8 := by
    refine fun k hk => Ram.number_congr fun n hn hn' => ?_
    obtain ⟨hin, hout⟩ := ht n (by omega) (by omega)
    exact hsame.cells n hin.1 hout
  rw [listed, listed, Reloc.mk.injEq]
  exact ⟨congrArg _ (hnumber 0 (by omega)), congrArg _ (hnumber 1 (by omega)),
    congrArg _ (hnumber 2 (by omega))⟩

/-! ## Checking -/

theorem kind_eq_iff : rec.kind = Reloc.relativeKind ↔ rec.info.toNat % 2 ^ 32 = 1027 := by
  have hmask : (0xFFFFFFFF : Word).toNat = 2 ^ 32 - 1 := rfl
  have hkind : Reloc.relativeKind.toNat = 1027 := rfl
  rw [← UInt64.toNat_inj, Reloc.kind, UInt64.toNat_and, hmask, hkind,
    Nat.and_two_pow_sub_one_eq_mod]

theorem inData_iff : InData data rec ↔
    ¬ (rec.slot.val % 8 ≠ 0 || !slotInside data rec.slot : Bool) = true := by
  rw [Bool.or_eq_true, decide_eq_true_eq, Bool.not_eq_true', not_or, Bool.not_eq_false,
    slotInside_eq_true_iff, ne_eq, not_not, slot_aligned_iff]
  exact ⟨fun h => ⟨h.aligned, h.low, h.high⟩, fun h => ⟨h.1, h.2.1, h.2.2⟩⟩

theorem accepted_iff_applicable : Accepted data rec ↔ Applicable data rec := by
  constructor
  · rintro ⟨hkind, haligned, hlow, hhigh⟩
    exact ⟨kind_eq_iff.1 hkind, slot_aligned_iff.1 haligned, hlow, hhigh⟩
  · rintro ⟨hkind, haligned, hlow, hhigh⟩
    exact ⟨kind_eq_iff.2 hkind, slot_aligned_iff.2 haligned, hlow, hhigh⟩

/-- What is wrong with a record: its kind, or else its slot. -/
inductive Wrong (data : PhysRange) (rec : Reloc) : RelocError → Prop where
  | kind : rec.info.toNat % 2 ^ 32 ≠ 1027 → Wrong data rec (.unsupported rec.slot rec.kind)
  | slot : rec.info.toNat % 2 ^ 32 = 1027 → ¬ InData data rec → Wrong data rec (.badSlot rec.slot)

theorem wrong_of_fault? (h : fault? data rec = some e) : Wrong data rec e := by
  unfold fault? at h
  split at h
  · rename_i hkind
    rw [ne_eq, kind_eq_iff] at hkind
    cases h
    exact .kind hkind
  · rename_i hkind
    rw [ne_eq, not_not, kind_eq_iff] at hkind
    split at h
    · rename_i hslot
      cases h
      exact .slot hkind fun hin => inData_iff.1 hin hslot
    · cases h

/-- The first bad record is reported, and what is wrong with it. -/
theorem exists_of_firstFault? (h : firstFault? r w data t i n = some e) :
    ∃ j, i ≤ j ∧ j < i + n ∧ (∀ k, i ≤ k → k < j → Accepted data (t.record r w k)) ∧
      fault? data (t.record r w j) = some e := by
  induction n generalizing i with
  | zero => cases h
  | succ n ih =>
    rw [firstFault?] at h
    cases hfault : fault? data (t.record r w i) with
    | some e' =>
      rw [hfault] at h
      cases h
      exact ⟨i, Nat.le_refl i, by omega, fun k hk hk' => by omega, hfault⟩
    | none =>
      rw [hfault] at h
      obtain ⟨j, hj, hj', hbefore, hthere⟩ := ih h
      refine ⟨j, by omega, by omega, fun k hk hk' => ?_, hthere⟩
      rcases Nat.eq_or_lt_of_le hk with rfl | hlt
      · exact fault?_eq_none_iff.1 hfault
      · exact hbefore k hlt hk'

theorem wholeRecords_iff : t.WholeRecords ↔
    ¬ (t.table.size % 24 ≠ 0 || t.table.start.val % 8 ≠ 0 : Bool) = true := by
  have h8 : (8 : UInt64).toNat = 8 := rfl
  have h24 : (24 : UInt64).toNat = 24 := rfl
  have hsize : t.table.size.toNat = t.table.stop.num - t.table.start.num := t.table.size_toNat
  have hstart : t.table.start.val.toNat = t.table.start.num := rfl
  rw [Bool.or_eq_true, decide_eq_true_eq, decide_eq_true_eq, not_or, ne_eq, not_not, ne_eq, not_not,
    ← UInt64.toNat_inj, ← UInt64.toNat_inj, UInt64.toNat_mod, UInt64.toNat_mod, h8, h24, hsize,
    hstart]
  exact ⟨fun h => ⟨h.size, h.start⟩, fun h => ⟨h.1, h.2⟩⟩

theorem validate_eq_ok_iff (hw : r.Shows w) (ht : t.Apart r data) :
    validate r w data t = .ok n ↔
      n = t.count ∧ t.WholeRecords ∧ ∀ i < t.count, Applicable data (t.listed r i) := by
  constructor
  · intro h
    obtain ⟨hn, hall⟩ := accepted_of_validate h
    refine ⟨hn, wholeRecords_iff.2 fun hguard => ?_, fun i hi => ?_⟩
    · rw [validate, if_pos hguard] at h
      cases h
    · rw [← record_eq_listed hw ht hi]
      exact accepted_iff_applicable.1 (hall i hi)
  · rintro ⟨rfl, hwhole, hall⟩
    have hnone : firstFault? r w data t 0 t.count = none :=
      firstFault?_eq_none_iff.2 fun j _ hj => by
        rw [record_eq_listed hw ht (by omega)]
        exact accepted_iff_applicable.2 (hall j (by omega))
    rw [validate, if_neg (wholeRecords_iff.1 hwhole), hnone]

theorem cases_of_validate (hw : r.Shows w) (ht : t.Apart r data)
    (h : validate r w data t = .error e) :
    (¬ t.WholeRecords ∧ e = .malformed t.table.size) ∨
      t.WholeRecords ∧ ∃ i < t.count, (∀ j < i, Applicable data (t.listed r j)) ∧
        Wrong data (t.listed r i) e := by
  unfold validate at h
  split at h
  · rename_i hguard
    cases h
    exact Or.inl ⟨fun hwhole => wholeRecords_iff.1 hwhole hguard, rfl⟩
  · rename_i hguard
    refine Or.inr ⟨wholeRecords_iff.2 hguard, ?_⟩
    split at h
    · rename_i e' hfault
      cases h
      obtain ⟨i, -, hi, hbefore, hthere⟩ := exists_of_firstFault? hfault
      have hi' : i < t.count := by omega
      refine ⟨i, hi', fun j hj => ?_, ?_⟩
      · rw [← record_eq_listed hw ht (by omega)]
        exact accepted_iff_applicable.1 (hbefore j (Nat.zero_le j) hj)
      · rw [← record_eq_listed hw ht hi']
        exact wrong_of_fault? hthere
    · cases h

/-! ## What applying leaves -/

/-- No record behind record `i` names its slot. -/
def LastFor (r : Ram) (t : Relocations) (i : Nat) : Prop :=
  ∀ j, i < j → j < t.count → (t.listed r j).slot ≠ (t.listed r i).slot

/-- Applying the table for the alias `d` bytes up has made `s` of `r`: every slot holds what the
last record for it says, and no other byte differs. -/
structure Reapplied (r s : Ram) (t : Relocations) (d : Word) : Prop where
  bank : Ram.SameBank r s
  slots : ∀ i < t.count, LastFor r t i →
    s.number (t.listed r i).slot.num 8 = ((t.listed r i).addend ||| d).toNat
  cells : ∀ n, r.base.num ≤ n →
    (∀ i < t.count, n < (t.listed r i).slot.num ∨ (t.listed r i).slot.num + 8 ≤ n) →
    s.cell n = r.cell n

/-- Of the records for a slot one is the last. -/
theorem exists_lastFor (r : Ram) (hi : i < t.count) :
    ∃ j < t.count, (t.listed r j).slot = (t.listed r i).slot ∧ LastFor r t j := by
  obtain ⟨j, hj, hmax⟩ := Finset.exists_max_image
    ((Finset.range t.count).filter fun j => (t.listed r j).slot = (t.listed r i).slot) id
    ⟨i, Finset.mem_filter.2 ⟨Finset.mem_range.2 hi, rfl⟩⟩
  rw [Finset.mem_filter, Finset.mem_range] at hj
  refine ⟨j, hj.1, hj.2, fun k hk hk' hslot => ?_⟩
  have hle : k ≤ j :=
    hmax k (Finset.mem_filter.2 ⟨Finset.mem_range.2 hk', hslot.trans hj.2⟩)
  omega

/-- Applying the table leaves one thing only. -/
theorem Reapplied.unique (h : Reapplied r s t d) (h' : Reapplied r u t d) : s = u := by
  refine (h'.bank.symm.trans h.bank).eq_of_cells fun n hn => ?_
  rw [h'.bank.base] at hn
  by_cases hout : ∀ i < t.count, n < (t.listed r i).slot.num ∨ (t.listed r i).slot.num + 8 ≤ n
  · rw [h.cells n hn hout, h'.cells n hn hout]
  · -- The byte is in a slot, and both banks hold there what the last record says.
    push Not at hout
    obtain ⟨i, hi, hlow, hhigh⟩ := hout
    obtain ⟨j, hj, hslot, hlast⟩ := exists_lastFor r hi
    rw [← hslot] at hlow hhigh
    have hnumber := (h.slots j hj hlast).trans (h'.slots j hj hlast).symm
    exact Ram.sameOn_of_number hnumber n hlow hhigh

/-- A table that can be applied: it is whole and apart from the data, which is in the bank, and so
are all its records applicable. -/
structure Reusable (r : Ram) (t : Relocations) (data : PhysRange) : Prop where
  apart : t.Apart r data
  inside : ∀ n, data.start.num ≤ n → n < data.stop.num → r.Has n 1
  whole : t.WholeRecords
  applicable : ∀ i < t.count, Applicable data (t.listed r i)

theorem Reusable.sameOutside (h : Reusable r t data) (hr : Reapplied r s t d) :
    Ram.SameOutside r s data where
  bank := hr.bank
  cells := by
    intro n hn hout
    refine hr.cells n hn fun i hi => ?_
    have hslot := (h.applicable i hi).slot
    have hlow := hslot.low
    have hhigh := hslot.high
    omega

theorem Reusable.listed_eq (h : Reusable r t data) (hr : Reapplied r s t d) (hi : i < t.count) :
    t.listed s i = t.listed r i :=
  listed_congr h.apart (h.sameOutside hr) hi

/-- The table itself stays as it is, so it can be applied again. -/
theorem Reusable.again (h : Reusable r t data) (hr : Reapplied r s t d) : Reusable s t data where
  apart := fun n hn hn' => ⟨hr.bank.has.2 (h.apart n hn hn').1, (h.apart n hn hn').2⟩
  inside := fun n hn hn' => hr.bank.has.2 (h.inside n hn hn')
  whole := h.whole
  applicable := by
    intro i hi
    rw [h.listed_eq hr hi]
    exact h.applicable i hi

/-- Of two applications the second one counts. -/
theorem Reusable.trans (h : Reusable r t data) (hr : Reapplied r s t d) (hs : Reapplied s u t d') :
    Reapplied r u t d' where
  bank := hr.bank.trans hs.bank
  slots := by
    intro i hi hlast
    have hlast' : LastFor s t i := by
      intro j hj hj'
      rw [h.listed_eq hr hj', h.listed_eq hr hi]
      exact hlast j hj hj'
    rw [← h.listed_eq hr hi]
    exact hs.slots i hi hlast'
  cells := by
    intro n hn hout
    have hout' : ∀ i < t.count,
        n < (t.listed s i).slot.num ∨ (t.listed s i).slot.num + 8 ≤ n := by
      intro i hi
      rw [h.listed_eq hr hi]
      exact hout i hi
    rw [hs.cells n (by rw [hr.bank.base]; exact hn) hout', hr.cells n hn hout]

/-! ## Applying -/

/-- A range of which every byte is in the bank is in the bank. -/
theorem has_of_bytes {range : PhysRange} (hlt : range.start.num < range.stop.num)
    (h : ∀ n, range.start.num ≤ n → n < range.stop.num → r.Has n 1) :
    r.Has range.start.num (range.stop.num - range.start.num) := by
  have hfirst := h range.start.num (Nat.le_refl _) hlt
  have hlast := h (range.stop.num - 1) (by omega) (by omega)
  unfold Ram.Has at hfirst hlast ⊢
  omega

/-- Without a record nothing is written. -/
theorem run_rebase_of_empty (hcount : t.count = 0) (w : Window) (d : Word) (b : Board) :
    ∃ b', rebase w t d b = .ok t.count b' ∧ b'.ram = b.ram := by
  have hrun : rebaseFrom w t d 0 t.count b = .ok () b := by
    rw [hcount]
    rfl
  obtain ⟨b', hrebase, hlog⟩ := exists_of_loop (within_iff.2 fun n hn hn' => by omega) hrun
  exact ⟨b', hrebase, hlog.ram⟩

/-- Applying a table always ends, with the number of its records. -/
theorem Reusable.run_rebase (h : Reusable r t data) (hw : r.Shows w) (hb : b.ram = r) (d : Word) :
    ∃ b', rebase w t d b = .ok t.count b' ∧ Reapplied r b'.ram t d := by
  rcases Nat.eq_zero_or_pos t.count with hcount | hpos
  · obtain ⟨b', hrun, hram⟩ := run_rebase_of_empty hcount w d b
    refine ⟨b', hrun, ?_⟩
    rw [hram, hb]
    exact ⟨Ram.SameBank.refl r, fun i hi => by omega, fun _ _ _ => rfl⟩
  · have hfirst := (h.applicable 0 hpos).slot
    have hlow := hfirst.low
    have hhigh := hfirst.high
    have hdata := has_of_bytes (by omega) h.inside
    have hrecord : ∀ i < t.count, t.record r w i = t.listed r i :=
      fun i hi => record_eq_listed hw h.apart hi
    have hall : ∀ i < t.count, Accepted data (t.record r w i) := by
      intro i hi
      rw [hrecord i hi]
      exact accepted_iff_applicable.2 (h.applicable i hi)
    obtain ⟨b', hrun, hhappens⟩ := h.apart.run_rebase hw hw hdata hall hb d
    have hram : b'.ram = Event.replay r (rewrites r w w t d 0 t.count) := by
      rw [hhappens.ram, hb]
    have hbank : Ram.SameBank r b'.ram := by
      rw [hram]
      exact Event.sameBank_replay ..
    refine ⟨b', hrun, hbank, fun i hi hlast => ?_, fun n hn hout => ?_⟩
    · have hslot := (h.applicable i hi).slot
      have hlow := hslot.low
      have hhigh := hslot.high
      have hword := word_replay_rewrites (d := d) (i := 0) (n := t.count) hw hdata hall (by omega)
        (Nat.zero_le i) (by omega) fun k hk hk' => by
          rw [hrecord k (by omega), hrecord i hi]
          exact hlast k hk (by omega)
      rw [← hram, hrecord i hi] at hword
      rw [← Ram.toNat_word (hbank.shows hw) (hbank.has.2 (hdata.mono hlow (by omega))), hword]
      rfl
    · rw [hram]
      refine cell_replay_rewrites hw hdata hall (by omega) hn fun i hi hi' => ?_
      rw [hrecord i (by omega)]
      exact hout i (by omega)

/-- Apply the table once for each of some windows and displacements. -/
def rebaseAll (t : Relocations) : List (Window × Word) → BoardM Unit
  | [] => return ()
  | (w, d) :: rest => do
    let _ ← rebase w t d
    rebaseAll t rest

/-- Before the last application the table has been applied or not, which makes no difference. -/
theorem Reusable.run_rebaseAll (h : Reusable r t data) (hb : b.ram = r)
    (calls : List (Window × Word)) (hcalls : ∀ c ∈ calls, r.Shows c.1) (hw : r.Shows w) (d : Word) :
    ∃ b', rebaseAll t (calls ++ [(w, d)]) b = .ok () b' ∧ Reapplied r b'.ram t d := by
  induction calls generalizing r b with
  | nil =>
    obtain ⟨b', hrun, hr⟩ := h.run_rebase hw hb d
    exact ⟨b', run_bind_ok hrun, hr⟩
  | cons c calls ih =>
    obtain ⟨w₁, d₁⟩ := c
    obtain ⟨b₁, hrun₁, hr₁⟩ := h.run_rebase (hcalls _ List.mem_cons_self) hb d₁
    obtain ⟨b', hrun, hr⟩ := ih (h.again hr₁) rfl
      (fun c hc => hr₁.bank.shows (hcalls c (List.mem_cons_of_mem _ hc))) (hr₁.bank.shows hw)
    refine ⟨b', ?_, h.trans hr₁ hr⟩
    rw [List.cons_append, rebaseAll, run_bind_ok hrun₁]
    exact hrun

/-! ## Checking and applying -/

/-- What checking the table says and what applying it leaves, through every window that shows the
bank. -/
structure Reapplies (r : Ram) (t : Relocations) (data : PhysRange) : Prop where
  accepts : ∀ w n, r.Shows w → (validate r w data t = .ok n ↔
    n = t.count ∧ t.WholeRecords ∧ ∀ i < t.count, Applicable data (t.listed r i))
  /-- Else the first bad record is reported, its kind before its slot. -/
  refuses : ∀ w e, r.Shows w → validate r w data t = .error e →
    (¬ t.WholeRecords ∧ e = .malformed t.table.size) ∨
      t.WholeRecords ∧ ∃ i < t.count, (∀ j < i, Applicable data (t.listed r j)) ∧
        Wrong data (t.listed r i) e
  /-- An accepted table is applied as a whole, and is accepted after that. -/
  applies : ∀ w n, r.Shows w → validate r w data t = .ok n →
    ∀ w' d b, r.Shows w' → b.ram = r → ∃ b', rebase w' t d b = .ok n b' ∧
      Reapplied r b'.ram t d ∧ Ram.SameOutside r b'.ram data ∧
      ∀ w'', r.Shows w'' → validate b'.ram w'' data t = .ok n
  /-- Applying it several times leaves what the last time leaves alone. -/
  last : ∀ w n, r.Shows w → validate r w data t = .ok n →
    ∀ calls w' d b, (∀ c ∈ calls, r.Shows (c : Window × Word).1) → r.Shows w' → b.ram = r →
      ∃ b₁ b₂, rebaseAll t (calls ++ [(w', d)]) b = .ok () b₁ ∧ rebase w' t d b = .ok n b₂ ∧
        b₁.ram = b₂.ram

/-- Whatever RAM holds, a table apart from the data is checked exactly, and once it is accepted it
can be applied any number of times. -/
theorem reapplies (ht : t.Apart r data)
    (hdata : ∀ n, data.start.num ≤ n → n < data.stop.num → r.Has n 1) : Reapplies r t data := by
  have hreusable : ∀ {w n}, r.Shows w → validate r w data t = .ok n →
      n = t.count ∧ Reusable r t data := by
    intro w n hw hok
    obtain ⟨hn, hwhole, hall⟩ := (validate_eq_ok_iff hw ht).1 hok
    exact ⟨hn, ht, hdata, hwhole, hall⟩
  constructor
  case accepts => exact fun w n hw => validate_eq_ok_iff hw ht
  case refuses => exact fun w e hw herror => cases_of_validate hw ht herror
  case applies =>
    intro w n hw hok w' d b hw' hb
    obtain ⟨rfl, h⟩ := hreusable hw hok
    obtain ⟨b', hrun, hr⟩ := h.run_rebase hw' hb d
    have hagain := h.again hr
    refine ⟨b', hrun, hr, h.sameOutside hr, fun w'' hw'' => ?_⟩
    exact (validate_eq_ok_iff (hr.bank.shows hw'') hagain.apart).2
      ⟨rfl, hagain.whole, hagain.applicable⟩
  case last =>
    intro w n hw hok calls w' d b hcalls hw' hb
    obtain ⟨rfl, h⟩ := hreusable hw hok
    obtain ⟨b₁, hrun₁, hr₁⟩ := h.run_rebaseAll hb calls hcalls hw' d
    obtain ⟨b₂, hrun₂, hr₂⟩ := h.run_rebase hw' hb d
    exact ⟨b₁, b₂, hrun₁, hrun₂, hr₁.unique hr₂⟩

/-- A bank of 64 bytes: a table of two records for one slot, and two words of data behind it. -/
def twice : Ram where
  base := ⟨0x1000⟩
  bytes := ⟨#[0x38, 0x10, 0, 0, 0, 0, 0, 0, 3, 4, 0, 0, 0, 0, 0, 0, 0x11, 0x11, 0, 0, 0, 0, 0, 0,
    0x38, 0x10, 0, 0, 0, 0, 0, 0, 3, 4, 0, 0, 0, 0, 0, 0, 0x22, 0x22, 0, 0, 0, 0, 0, 0,
    0, 0, 0, 0, 0, 0, 0, 0, 0, 0, 0, 0, 0, 0, 0, 0]⟩
  home := 0x1000
  gap := 0

/-- The table in that bank. -/
def twiceTable : Relocations := ⟨.ofWords 0x1000 0x1030⟩

/-- The data behind it. -/
def twiceData : PhysRange := .ofWords 0x1030 0x1040

/-- The table is accepted. Applied for two aliases in turn it leaves the addend of the second record
in the slot, for the second alias. -/
theorem reapplies_sample : Reapplies twice twiceTable twiceData ∧
    validate twice .identity twiceData twiceTable = .ok 2 ∧
    ∀ b : Board, b.ram = twice → ∃ b₁, rebaseAll twiceTable
        [(.identity, 0xF000), (.identity, 0xFFFF800000000000)] b = .ok () b₁ ∧
      b₁.ram.number 0x1038 8 = 0xFFFF800000002222 := by
  have hhas : ∀ n, 0x1000 ≤ n → n < 0x1040 → twice.Has n 1 := by
    intro n hn hn'
    exact ⟨hn, by show n + 1 ≤ 0x1000 + 64; omega⟩
  have hcount : twiceTable.count = 2 := by decide
  have happart : twiceTable.Apart twice twiceData := by
    intro n hn hn'
    rw [hcount] at hn'
    change 0x1000 ≤ n at hn
    change n < 0x1000 + 24 * 2 at hn'
    refine ⟨hhas n hn (by omega), fun hin => ?_⟩
    have hlow : 0x1030 ≤ n := hin.1
    omega
  have hall : Reapplies twice twiceTable twiceData :=
    reapplies happart fun n hn hn' => hhas n (Nat.le_trans (by decide) hn) hn'
  have hshows : twice.Shows .identity := Ram.shows_window (by decide)
  have hok : validate twice .identity twiceData twiceTable = .ok 2 := by
    refine (hall.accepts _ _ hshows).2 ⟨hcount.symm, ⟨by decide, by decide⟩, fun i hi => ?_⟩
    have hi' : i = 0 ∨ i = 1 := by omega
    rcases hi' with rfl | rfl
    all_goals exact ⟨by decide, by decide, by decide, by decide⟩
  refine ⟨hall, hok, fun b hb => ?_⟩
  obtain ⟨b₁, b₂, hrun₁, hrun₂, hsame⟩ := hall.last _ _ hshows hok [(.identity, 0xF000)] .identity
    0xFFFF800000000000 b (fun c hc => by rw [List.mem_singleton.1 hc]; exact hshows) hshows hb
  obtain ⟨b', hrun, hr, -⟩ := hall.applies _ _ hshows hok .identity 0xFFFF800000000000 b hshows hb
  cases hrun.symm.trans hrun₂
  refine ⟨b₁, hrun₁, ?_⟩
  rw [hsame]
  exact hr.slots 1 (by decide) fun j hj hj' => by omega

end Relocations

end HighHalf
