import HighHalf.Relocation
import HighHalf.Proofs.Board.Bank
import HighHalf.Proofs.Board.Events

/-!
# Applying the relocation table again

The slots of a table that was accepted are words inside the image's data. As long as no slot is
among the records, applying them changes none of them, so every record that is applied is one that
was accepted, and no byte outside the data changes. A table that shares no byte with the data has
no slot among its records. Wherever else it lies, a run that comes to its end has found none.

## Main definitions

* `Ram.SameOutside`: only bytes of a range may have changed
* `Relocations.Apart`: the table lies in RAM, outside of the data
* `Relocations.rewrites`: the stores by which the records are applied
-/

namespace HighHalf

/-! ## Changes inside a range -/

/-- No address lies in both ranges. -/
def PhysRange.Disjoint (r r' : PhysRange) : Prop :=
  ∀ p, ¬ (r.contains p = true ∧ r'.contains p = true)

namespace PhysRange

variable {r r' : PhysRange} {n : Nat}

theorem disjoint_of_le (h : r.stop.num ≤ r'.start.num) : r.Disjoint r' := by
  rintro p ⟨hp, hp'⟩
  rw [contains_iff] at hp hp'
  have hhigh : p.num < r.stop.num := hp.2
  have hlow : r'.start.num ≤ p.num := hp'.1
  omega

theorem Disjoint.apart (h : r.Disjoint r') (hn : r.start.num ≤ n ∧ n < r.stop.num) :
    ¬ (r'.start.num ≤ n ∧ n < r'.stop.num) := by
  have htop := r.stop.num_lt
  have hnum : (UInt64.ofNat n).toNat = n := UInt64.toNat_ofNat_of_lt' (by show n < 2 ^ 64; omega)
  intro hn'
  refine h ⟨UInt64.ofNat n⟩ ⟨?_, ?_⟩
  · rw [contains_iff]
    show r.start.num ≤ (UInt64.ofNat n).toNat ∧ (UInt64.ofNat n).toNat < r.stop.num
    rwa [hnum]
  · rw [contains_iff]
    show r'.start.num ≤ (UInt64.ofNat n).toNat ∧ (UInt64.ofNat n).toNat < r'.stop.num
    rwa [hnum]

end PhysRange

namespace Ram

/-- The same bank, which differs in no byte outside the range. -/
structure SameOutside (r s : Ram) (range : PhysRange) : Prop where
  bank : SameBank r s
  cells : ∀ n, r.base.num ≤ n → ¬ (range.start.num ≤ n ∧ n < range.stop.num) → s.cell n = r.cell n

variable {r s t : Ram} {range : PhysRange} {a b : Nat}

theorem SameOutside.refl (r : Ram) (range : PhysRange) : SameOutside r r range :=
  ⟨SameBank.refl r, fun _ _ _ => rfl⟩

theorem SameOutside.trans (h : SameOutside r s range) (h' : SameOutside s t range) :
    SameOutside r t range where
  bank := h.bank.trans h'.bank
  cells := by
    intro n hn hout
    rw [h'.cells n (by rw [h.bank.base]; exact hn) hout, h.cells n hn hout]

/-- What lies apart from the range is the same. -/
theorem SameOutside.sameOn (h : SameOutside r s range) (ha : r.base.num ≤ a)
    (hout : b ≤ range.start.num ∨ range.stop.num ≤ a) : SameOn r s a b :=
  fun n hn hn' => h.cells n (by omega) (by omega)

end Ram

/-! ## The stores -/

theorem Store.sameBank_apply (s : Store) (r : Ram) : Ram.SameBank r (s.apply r) := by
  cases s with
  | byte a v => exact Ram.sameBank_setByte ..
  | word a v => exact Ram.sameBank_setWord ..
  | clear a n => exact Ram.sameBank_clear ..

/-- Nothing that happens moves the bank. -/
theorem Event.sameBank_replay (es : List Event) (r : Ram) : Ram.SameBank r (replay r es) := by
  induction es generalizing r with
  | nil => exact Ram.SameBank.refl r
  | cons e es ih =>
    cases e with
    | store s => exact (s.sameBank_apply r).trans (ih (s.apply r))
    | _ => exact ih r

/-- A byte that no store changes stays as it is. -/
theorem Event.cell_replay {r r' : Ram} {n : Nat} {es : List Event} (hbank : Ram.SameBank r r')
    (h : ∀ s, .store s ∈ es → ∀ r', Ram.SameBank r r' → (s.apply r').cell n = r'.cell n) :
    (replay r' es).cell n = r'.cell n := by
  induction es generalizing r' with
  | nil => rfl
  | cons e es ih =>
    have hrest := fun s hs => h s (List.mem_cons_of_mem e hs)
    cases e with
    | store s =>
      rw [replay_store, ih (hbank.trans (s.sameBank_apply r')) hrest]
      exact h s List.mem_cons_self r' hbank
    | _ => exact ih hbank hrest

/-- A store, through a window, of a word inside a range. -/
structure Store.Inside (s : Store) (w : Window) (range : PhysRange) (p : PhysAddr) : Prop where
  word : ∃ v, s = .word (w.reach p) v
  low : range.start.num ≤ p.num
  high : p.num + 8 ≤ range.stop.num

/-- Whatever the event stores is a word inside a range. -/
def Event.Spares (w : Window) (range : PhysRange) (e : Event) : Prop :=
  ∀ s, e = .store s → ∃ p, s.Inside w range p

/-- Stores inside a range change nothing outside. -/
theorem Event.sameOutside_replay {r : Ram} {w : Window} {range : PhysRange} {es : List Event}
    (hw : r.Shows w) (hrange : r.Has range.start.num (range.stop.num - range.start.num))
    (hall : ∀ e ∈ es, e.Spares w range) : Ram.SameOutside r (replay r es) range where
  bank := sameBank_replay es r
  cells := by
    intro n hn hout
    refine cell_replay (Ram.SameBank.refl r) fun s hs r' hbank => ?_
    obtain ⟨p, ⟨v, rfl⟩, hlow, hhigh⟩ := hall _ hs s rfl
    -- The store stays in RAM, where the window shows it.
    exact Ram.cell_setWord_of_lt (hbank.shows hw) (hbank.has.2 (hrange.mono hlow (by omega))) v
      (by rwa [hbank.base]) (by omega)

namespace Relocations

variable {r r₀ : Ram} {w w' : Window} {t : Relocations} {data : PhysRange} {d : Word} {i j n : Nat}
  {slot : PhysAddr} {b : Board}

/-! ## Accepted tables -/

theorem slotInside_eq_true_iff :
    slotInside data slot = true ↔ data.start.num ≤ slot.num ∧ slot.num + 8 ≤ data.stop.num := by
  have hnum : slot.val.toNat = slot.num := rfl
  have h8 : (8 : UInt64).toNat = 8 := rfl
  have htop := data.stop.num_lt
  unfold slotInside
  cases hadd : slot.val.add? 8 with
  | none =>
    rw [Word.add?_eq_none_iff] at hadd
    simp only [Bool.false_eq_true, false_iff]
    omega
  | some stop =>
    rw [Word.add?_eq_some_iff] at hadd
    rw [Bool.and_eq_true, PhysRange.contains_iff, decide_eq_true_iff, UInt64.le_iff_toNat_le]
    show (data.start.num ≤ slot.num ∧ slot.num < data.stop.num) ∧ stop.toNat ≤ data.stop.num ↔ _
    omega

/-- A record that was accepted is a relative one for an aligned word inside the data. -/
structure Accepted (data : PhysRange) (rec : Reloc) : Prop where
  kind : rec.kind = Reloc.relativeKind
  aligned : rec.slot.val % 8 = 0
  low : data.start.num ≤ rec.slot.num
  high : rec.slot.num + 8 ≤ data.stop.num

theorem fault?_eq_none_iff {rec : Reloc} : fault? data rec = none ↔ Accepted data rec := by
  unfold fault?
  by_cases hkind : rec.kind = Reloc.relativeKind
  · rw [if_neg (not_not_intro hkind)]
    by_cases hslot : (rec.slot.val % 8 ≠ 0 || !slotInside data rec.slot : Bool) = true
    · rw [if_pos hslot]
      constructor
      · intro h
        cases h
      · intro h
        have hin := slotInside_eq_true_iff.2 ⟨h.low, h.high⟩
        simp [h.aligned, hin] at hslot
    · rw [if_neg hslot]
      simp only [Bool.or_eq_true, decide_eq_true_eq, Bool.not_eq_true', not_or, not_not,
        Bool.not_eq_false, slotInside_eq_true_iff] at hslot
      exact ⟨fun _ => ⟨hkind, hslot.1, hslot.2.1, hslot.2.2⟩, fun _ => rfl⟩
  · rw [if_pos hkind]
    constructor
    · intro h
      cases h
    · intro h
      exact absurd h.kind hkind

theorem firstFault?_eq_none_iff : firstFault? r w data t i n = none ↔
    ∀ j, i ≤ j → j < i + n → Accepted data (t.record r w j) := by
  induction n generalizing i with
  | zero =>
    unfold firstFault?
    exact ⟨fun _ j hj hj' => by omega, fun _ => rfl⟩
  | succ n ih =>
    unfold firstFault?
    cases hfault : fault? data (t.record r w i) with
    | some e =>
      constructor
      · intro h
        cases h
      · intro h
        rw [fault?_eq_none_iff.2 (h i (Nat.le_refl i) (by omega))] at hfault
        cases hfault
    | none =>
      rw [ih]
      constructor
      · intro h j hj hj'
        rcases Nat.eq_or_lt_of_le hj with rfl | hlt
        · exact fault?_eq_none_iff.1 hfault
        · exact h j hlt (by omega)
      · intro h j hj hj'
        exact h j (by omega) (by omega)

theorem accepted_of_validate (h : validate r w data t = .ok n) :
    n = t.count ∧ ∀ j < t.count, Accepted data (t.record r w j) := by
  unfold validate at h
  split at h
  · cases h
  · split at h
    · cases h
    · rename_i hnone
      cases h
      refine ⟨rfl, fun j hj => ?_⟩
      exact firstFault?_eq_none_iff.1 hnone j (Nat.zero_le j) (by omega)

/-- Whole records that can all be applied again make a table that is accepted. -/
theorem validate_of_accepted (hsize : t.table.size % 24 = 0) (hstart : t.table.start.val % 8 = 0)
    (hall : ∀ j < t.count, Accepted data (t.record r w j)) : validate r w data t = .ok t.count := by
  have hnone : firstFault? r w data t 0 t.count = none :=
    firstFault?_eq_none_iff.2 fun j _ hj => hall j (by omega)
  rw [validate, hsize, hstart, hnone]
  rfl

/-! ## Applying the records -/

/-- Every byte of the table is in the bank. -/
def Stored (t : Relocations) (r : Ram) : Prop :=
  ∀ n, t.table.start.num ≤ n → n < t.table.start.num + 24 * t.count → r.Has n 1

/-- Every byte of the table is in the bank, and none is in the data. -/
def Apart (t : Relocations) (r : Ram) (data : PhysRange) : Prop :=
  ∀ n, t.table.start.num ≤ n → n < t.table.start.num + 24 * t.count →
    r.Has n 1 ∧ ¬ (data.start.num ≤ n ∧ n < data.stop.num)

/-- The same bank, which holds the same table. -/
structure Keeps (t : Relocations) (r s : Ram) : Prop where
  bank : Ram.SameBank r s
  cells : Ram.SameOn r s t.table.start.num (t.table.start.num + 24 * t.count)

theorem Apart.stored (h : t.Apart r data) : t.Stored r := fun n hn hn' => (h n hn hn').1

theorem Apart.congr {s : Ram} (h : t.Apart r data) (hbank : Ram.SameBank r s) : t.Apart s data :=
  fun n hn hn' => ⟨hbank.has.2 (h n hn hn').1, (h n hn hn').2⟩

theorem Keeps.refl (t : Relocations) (r : Ram) : t.Keeps r r :=
  ⟨Ram.SameBank.refl r, Ram.SameOn.refl r _ _⟩

theorem Keeps.trans {s u : Ram} (h : t.Keeps r s) (h' : t.Keeps s u) : t.Keeps r u :=
  ⟨h.bank.trans h'.bank, h.cells.trans h'.cells⟩

/-- The records are in the table, so they share no byte with what it shares none with. -/
theorem apart_of_table (h : ∀ n, t.table.start.num ≤ n → n < t.table.stop.num →
    r.Has n 1 ∧ ¬ (data.start.num ≤ n ∧ n < data.stop.num)) : t.Apart r data := by
  have hsize : t.table.size.toNat = t.table.stop.num - t.table.start.num := t.table.size_toNat
  have hcount : 24 * t.count ≤ t.table.size.toNat := Nat.mul_div_le _ 24
  exact fun n hn hn' => h n hn (by omega)

/-- What changes the data alone does not change the table. -/
theorem Apart.keeps {s : Ram} (h : t.Apart r data) (hsame : Ram.SameOutside r s data) :
    t.Keeps r s where
  bank := hsame.bank
  cells := fun n hn hn' => hsame.cells n (h n hn hn').1.1 (h n hn hn').2

theorem within_iff : t.within r = true ↔ t.Stored r := by
  have hbase : r.base.val.toNat = r.base.num := rfl
  have hstart : t.table.start.val.toNat = t.table.start.num := rfl
  simp only [within, Ram.holds, Ram.top, Reloc.size, Bool.or_eq_true, Bool.and_eq_true,
    decide_eq_true_eq, hbase, hstart]
  constructor
  · intro h n hn hn'
    unfold Ram.Has
    omega
  · intro h
    rcases Nat.eq_zero_or_pos t.count with hcount | hpos
    · exact Or.inl hcount
    · -- First and last byte are in the bank, so all of the table is.
      have hfirst := h t.table.start.num (Nat.le_refl _) (by omega)
      have hlast := h (t.table.start.num + 24 * t.count - 1) (by omega) (by omega)
      unfold Ram.Has at hfirst hlast
      omega

theorem meets_eq_false_iff : t.meets slot = false ↔
    slot.num + 8 ≤ t.table.start.num ∨ t.table.start.num + 24 * t.count ≤ slot.num := by
  have hslot : slot.val.toNat = slot.num := rfl
  have hstart : t.table.start.val.toNat = t.table.start.num := rfl
  simp only [meets, Reloc.size, Bool.and_eq_false_iff, decide_eq_false_iff_not, hslot, hstart]
  omega

/-- A slot in the data shares no byte with a table that is apart from the data. -/
theorem Apart.meets_eq_false (h : t.Apart r data) (hcount : 0 < t.count)
    (hlow : data.start.num ≤ slot.num) (hhigh : slot.num + 8 ≤ data.stop.num) :
    t.meets slot = false := by
  rw [meets_eq_false_iff]
  by_contra hmeets
  -- The first byte that the two share.
  have hn := (h (max t.table.start.num slot.num) (by omega) (by omega)).2
  omega

/-- Word `k` of record `i` is in the bank. -/
theorem has_record (hw : r.Shows w) (ht : t.Stored r) (hi : i < t.count) {k : Nat}
    (hk : k < 3) : (t.table.start.up (24 * i + 8 * k)).num = t.table.start.num + (24 * i + 8 * k) ∧
      r.Has (t.table.start.num + (24 * i + 8 * k)) 8 := by
  -- First and last byte of the word are in the table, so the bank has all of it.
  have hfirst := ht (t.table.start.num + (24 * i + 8 * k)) (by omega) (by omega)
  have hlast := ht (t.table.start.num + (24 * i + 8 * k + 7)) (by omega) (by omega)
  have htop := hw.top
  unfold Ram.Has at hfirst hlast ⊢
  exact ⟨PhysAddr.num_up (by omega), by omega, by omega⟩

theorem reach_record (w : Window) (t : Relocations) (i k : Nat) :
    w.reach t.table.start + UInt64.ofNat (24 * i) + UInt64.ofNat (8 * k) =
      w.reach (t.table.start.up (24 * i + 8 * k)) := by
  rw [← PhysAddr.up_up, Window.reach_up, Window.reach_up]

theorem word_record (hw : r₀.Shows w) (hw' : r.Shows w') (ht : t.Stored r₀)
    (hkeeps : t.Keeps r₀ r) (hi : i < t.count) {k : Nat} (hk : k < 3) :
    r.word (w'.reach t.table.start + UInt64.ofNat (24 * i) + UInt64.ofNat (8 * k)) =
      r₀.word (w.reach t.table.start + UInt64.ofNat (24 * i) + UInt64.ofNat (8 * k)) := by
  obtain ⟨hnum, hhas⟩ := has_record hw ht hi hk
  rw [reach_record, reach_record]
  exact Ram.word_congr hw hw' hkeeps.bank (by rw [hnum]; exact hhas)
    (hkeeps.cells.mono (by omega) (by omega))

/-- A record is the same as long as the table is, through whatever window. -/
theorem record_congr (hw : r₀.Shows w) (hw' : r.Shows w') (ht : t.Stored r₀)
    (hkeeps : t.Keeps r₀ r) (hi : i < t.count) : t.record r w' i = t.record r₀ w i := by
  have h0 := word_record hw hw' ht hkeeps hi (k := 0) (by omega)
  have h1 := word_record hw hw' ht hkeeps hi (k := 1) (by omega)
  have h2 := word_record hw hw' ht hkeeps hi (k := 2) (by omega)
  rw [record, record, Reloc.mk.injEq]
  refine ⟨?_, h1, h2⟩
  have hzero : ∀ a : Word, a + UInt64.ofNat (8 * 0) = a := fun a => a.add_zero
  rw [hzero, hzero] at h0
  exact h0

theorem firstFault?_congr (hrecord : ∀ j < t.count, t.record r w' j = t.record r₀ w j)
    (hi : i + n ≤ t.count) : firstFault? r w' data t i n = firstFault? r₀ w data t i n := by
  induction n generalizing i with
  | zero => rfl
  | succ n ih => rw [firstFault?, firstFault?, hrecord i (by omega), ih (by omega)]

/-- A table is accepted or refused alike as long as all that changes lies apart from it. -/
theorem validate_congr {range : PhysRange} (hw : r₀.Shows w) (hw' : r.Shows w')
    (ht : t.Apart r₀ range) (hsame : Ram.SameOutside r₀ r range) :
    validate r w' data t = validate r₀ w data t := by
  have hrecord : ∀ j < t.count, t.record r w' j = t.record r₀ w j :=
    fun j hj => record_congr hw hw' ht.stored (ht.keeps hsame) hj
  rw [validate, validate, firstFault?_congr hrecord (Nat.le_of_eq (Nat.zero_add _))]

/-- The stores that apply records `i` and on, `n` of them, for the alias `d` bytes up, if the
records are those that `r` shows through `w`. -/
def rewrites (r : Ram) (w w' : Window) (t : Relocations) (d : Word) (i n : Nat) : List Event :=
  (List.range' i n).map fun j =>
    .store (.word (w'.reach (t.record r w j).slot) ((t.record r w j).target ||| d))

theorem mem_rewrites {e : Event} : e ∈ rewrites r w w' t d i n ↔ ∃ j, (i ≤ j ∧ j < i + n) ∧
    .store (.word (w'.reach (t.record r w j).slot) ((t.record r w j).target ||| d)) = e := by
  simp only [rewrites, List.mem_map, List.mem_range'_1]

theorem spares_rewrites (hall : ∀ j < t.count, Accepted data (t.record r w j))
    (hi : i + n ≤ t.count) : ∀ e ∈ rewrites r w w' t d i n, e.Spares w' data := by
  intro e he s hs
  obtain ⟨j, hj, rfl⟩ := mem_rewrites.1 he
  cases hs
  have hrec := hall j (by omega)
  exact ⟨_, ⟨_, rfl⟩, hrec.low, hrec.high⟩

theorem write_not_mem_rewrites {g : Register} {v : Word} :
    .write g v ∉ rewrites r w w' t d i n := by
  intro hmem
  obtain ⟨j, -, hj⟩ := mem_rewrites.1 hmem
  cases hj

/-! ## What applying them leaves -/

theorem slot_aligned_iff {rec : Reloc} : rec.slot.val % 8 = 0 ↔ rec.slot.num % 8 = 0 := by
  have h8 : (8 : UInt64).toNat = 8 := rfl
  rw [← UInt64.toNat_inj, UInt64.toNat_mod, h8]
  rfl

/-- Slots are aligned, so two of them are the same or share no byte. -/
theorem Accepted.apart {rec rec' : Reloc} (h : Accepted data rec) (h' : Accepted data rec')
    (hne : rec.slot ≠ rec'.slot) :
    rec.slot.num + 8 ≤ rec'.slot.num ∨ rec'.slot.num + 8 ≤ rec.slot.num := by
  have hnum : rec.slot.num ≠ rec'.slot.num := fun he => hne (PhysAddr.num_inj he)
  have hrec := slot_aligned_iff.1 h.aligned
  have hrec' := slot_aligned_iff.1 h'.aligned
  omega

theorem rewrites_succ (r : Ram) (w w' : Window) (t : Relocations) (d : Word) (i n : Nat) :
    rewrites r w w' t d i (n + 1) =
      .store (.word (w'.reach (t.record r w i).slot) ((t.record r w i).target ||| d)) ::
        rewrites r w w' t d (i + 1) n := by
  rw [rewrites, rewrites, List.range'_succ, List.map_cons]

section Left

variable (hw' : r.Shows w') (hdata : r.Has data.start.num (data.stop.num - data.start.num))
  (hall : ∀ j < t.count, Accepted data (t.record r₀ w j)) (hi : i + n ≤ t.count)

include hw' hdata hall hi

/-- A byte in no slot stays as it is. -/
theorem cell_replay_rewrites {k : Nat} (hk : r.base.num ≤ k)
    (hout : ∀ j, i ≤ j → j < i + n → k < (t.record r₀ w j).slot.num ∨
      (t.record r₀ w j).slot.num + 8 ≤ k) :
    (Event.replay r (rewrites r₀ w w' t d i n)).cell k = r.cell k := by
  refine Event.cell_replay (Ram.SameBank.refl r) fun s hs r' hbank => ?_
  obtain ⟨j, hj, hstore⟩ := mem_rewrites.1 hs
  cases hstore
  have hrec := hall j (by omega)
  have hlow := hrec.low
  have hhigh := hrec.high
  exact Ram.cell_setWord_of_lt (hbank.shows hw') (hbank.has.2 (hdata.mono hlow (by omega))) _
    (by rwa [hbank.base]) (hout j hj.1 hj.2)

/-- The last record for a slot decides what it holds. -/
theorem word_replay_rewrites {j : Nat} (hj : i ≤ j) (hj' : j < i + n)
    (hlast : ∀ k, j < k → k < i + n → (t.record r₀ w k).slot ≠ (t.record r₀ w j).slot) :
    (Event.replay r (rewrites r₀ w w' t d i n)).word (w'.reach (t.record r₀ w j).slot) =
      (t.record r₀ w j).target ||| d := by
  induction n generalizing r i with
  | zero => omega
  | succ n ih =>
    have hrec := hall i (by omega)
    have hlow := hrec.low
    have hhigh := hrec.high
    have hslot : r.Has (t.record r₀ w i).slot.num 8 := hdata.mono hlow (by omega)
    have hbank := Ram.sameBank_setWord r (w'.reach (t.record r₀ w i).slot)
      ((t.record r₀ w i).target ||| d)
    rw [rewrites_succ, Event.replay_store, Store.apply]
    rcases Nat.eq_or_lt_of_le hj with rfl | hlt
    · -- The records after it have other slots.
      have hshows := hbank.shows hw'
      have hspares : ∀ e ∈ rewrites r₀ w w' t d (i + 1) n, e.Spares w' data :=
        spares_rewrites hall (by omega)
      have hrest := Event.sameOutside_replay hshows (hbank.has.2 hdata) hspares
      refine Eq.trans ?_ (Ram.word_setWord hw' hslot _)
      refine Ram.word_congr hshows (hrest.bank.shows hshows) hrest.bank (hbank.has.2 hslot)
        fun k hk hk' => ?_
      refine cell_replay_rewrites hshows (hbank.has.2 hdata) hall (by omega)
        (by rw [hbank.base]; exact Nat.le_trans hslot.1 hk) fun j' hj₁ hj₂ => ?_
      have hapart := (hall j' (by omega)).apart hrec (hlast j' (by omega) (by omega))
      omega
    · exact ih (hbank.shows hw') (hbank.has.2 hdata) (by omega) hlt (by omega)
        fun k hk hk' => hlast k hk (by omega)

end Left

/-! ## Running the loop -/

/-- A slot among the records ends the run. -/
theorem rebaseFrom_of_meets (h : t.meets (t.record b.ram w i).slot = true) (n : Nat) :
    rebaseFrom w t d i (n + 1) b =
      .error (.undefined (.recordOverwritten (t.record b.ram w i).offset)) b := by
  rw [rebaseFrom, run_bind_ok (run_get b), if_pos h]
  rfl

/-- Any other slot is written, and the loop goes on. -/
theorem exists_of_spared (h : t.meets (t.record b.ram w i).slot = false) (n : Nat) :
    ∃ b₁, rebaseFrom w t d i (n + 1) b = rebaseFrom w t d (i + 1) n b₁ ∧
      b.Happens b₁ [.store (.word (w.reach (t.record b.ram w i).slot)
        ((t.record b.ram w i).target ||| d))] := by
  obtain ⟨b₁, hstore, hone⟩ : ∃ b₁, Board.store (.word (w.reach (t.record b.ram w i).slot)
      ((t.record b.ram w i).target ||| d)) b = .ok () b₁ ∧
      b.Happens b₁ [.store (.word (w.reach (t.record b.ram w i).slot)
        ((t.record b.ram w i).target ||| d))] :=
    ⟨_, rfl, Board.Happens.one rfl rfl rfl rfl⟩
  refine ⟨b₁, ?_, hone⟩
  rw [rebaseFrom, run_bind_ok (run_get b), h]
  exact run_bind_ok hstore

/-- Writing a word that is not among the records leaves them as they are. -/
theorem keeps_of_spared {b₁ : Board} {v : Word} (hw : b.ram.Shows w) (ht : t.Stored b.ram)
    (hslot : b.ram.Has slot.num 8) (h : t.meets slot = false)
    (hone : b.Happens b₁ [.store (.word (w.reach slot) v)]) : t.Keeps b.ram b₁.ram := by
  rw [hone.ram, Event.replay_store, Store.apply, Event.replay_nil]
  refine ⟨Ram.sameBank_setWord .., fun n hn hn' => ?_⟩
  rw [meets_eq_false_iff] at h
  exact Ram.cell_setWord_of_lt hw hslot v (ht n hn hn').1 (by omega)

section Loop

variable (hw : r₀.Shows w) (hw' : r₀.Shows w')
  (hdata : r₀.Has data.start.num (data.stop.num - data.start.num)) (ht : t.Stored r₀)
  (hall : ∀ j < t.count, Accepted data (t.record r₀ w j))

include hw hw' hdata ht hall

/-- One round, as long as the table is the one that was accepted. -/
theorem round_of_spared (hkeeps : t.Keeps r₀ b.ram) (hi : i < t.count)
    (hspared : t.meets (t.record r₀ w i).slot = false) (n : Nat) :
    ∃ b₁, rebaseFrom w' t d i (n + 1) b = rebaseFrom w' t d (i + 1) n b₁ ∧
      b.Happens b₁ [.store (.word (w'.reach (t.record r₀ w i).slot)
        ((t.record r₀ w i).target ||| d))] ∧ t.Keeps r₀ b₁.ram := by
  have hshows := hkeeps.bank.shows hw'
  have hrecord := record_congr hw hshows ht hkeeps hi
  have hlow := (hall i hi).low
  have hhigh := (hall i hi).high
  have hslot : b.ram.Has (t.record r₀ w i).slot.num 8 :=
    hkeeps.bank.has.2 (hdata.mono hlow (by omega))
  obtain ⟨b₁, hrun, hone⟩ := exists_of_spared (w := w') (b := b) (d := d) (by rwa [hrecord]) n
  rw [hrecord] at hone
  exact ⟨b₁, hrun, hone, hkeeps.trans (keeps_of_spared hshows
    (fun n hn hn' => hkeeps.bank.has.2 (ht n hn hn')) hslot hspared hone)⟩

/-- The records are applied as they were accepted if no slot is among them. -/
theorem run_rebaseFrom (hkeeps : t.Keeps r₀ b.ram) (hi : i + n ≤ t.count)
    (hspared : ∀ j < t.count, t.meets (t.record r₀ w j).slot = false) :
    ∃ b', rebaseFrom w' t d i n b = .ok () b' ∧ b.Happens b' (rewrites r₀ w w' t d i n) := by
  induction n generalizing i b with
  | zero => exact ⟨b, rfl, Board.Happens.refl b⟩
  | succ n ih =>
    obtain ⟨b₁, hrun, hone, hkeeps₁⟩ :=
      round_of_spared hw hw' hdata ht hall hkeeps (by omega) (hspared i (by omega)) n
    obtain ⟨b', hrest, hlater⟩ := ih (i := i + 1) hkeeps₁ (by omega)
    exact ⟨b', hrun.trans hrest, hone.trans hlater⟩

/-- If the loop comes to its end, no slot was among the records. -/
theorem spared_of_rebaseFrom {b' : Board} (hkeeps : t.Keeps r₀ b.ram) (hi : i + n ≤ t.count)
    (hrun : rebaseFrom w' t d i n b = .ok () b') :
    ∀ j, i ≤ j → j < i + n → t.meets (t.record r₀ w j).slot = false := by
  induction n generalizing i b with
  | zero => exact fun j hj hj' => by omega
  | succ n ih =>
    have hrecord : t.record b.ram w' i = t.record r₀ w i :=
      record_congr hw (hkeeps.bank.shows hw') ht hkeeps (by omega)
    cases hmeets : t.meets (t.record r₀ w i).slot with
    | true =>
      rw [rebaseFrom_of_meets (by rwa [hrecord])] at hrun
      cases hrun
    | false =>
      obtain ⟨b₁, hround, -, hkeeps₁⟩ :=
        round_of_spared (d := d) hw hw' hdata ht hall hkeeps (by omega) hmeets n
      intro j hj hj'
      rcases Nat.eq_or_lt_of_le hj with rfl | hlt
      · exact hmeets
      · exact ih hkeeps₁ (by omega) (hround.symm.trans hrun) j hlt (by omega)

end Loop

/-! ## The whole table -/

/-- Behind the loop there is only the log. -/
theorem exists_of_loop {b₁ : Board} (hwithin : t.within b.ram = true)
    (hrun : rebaseFrom w t d 0 t.count b = .ok () b₁) :
    ∃ b', rebase w t d b = .ok t.count b' ∧ b₁.Happens b' [] := by
  obtain ⟨b', hnote⟩ : ∃ b', Board.note .debug .relocation
      s!"{t.count} image pointers rebased by {d.hex}" b₁ = .ok () b' := ⟨_, rfl⟩
  refine ⟨b', ?_, ?_⟩
  · rw [rebase, run_bind_ok (run_get b), hwithin]
    exact (run_bind_ok hrun).trans (run_bind_ok hnote)
  · cases hnote
    exact ⟨(List.append_nil _).symm, rfl, rfl, rfl⟩

/-- A table that was accepted is applied as a whole if it lies in RAM and no slot is in it. -/
theorem run_rebase (hw : r₀.Shows w) (hw' : r₀.Shows w')
    (hdata : r₀.Has data.start.num (data.stop.num - data.start.num)) (ht : t.Stored r₀)
    (hall : ∀ j < t.count, Accepted data (t.record r₀ w j))
    (hspared : ∀ j < t.count, t.meets (t.record r₀ w j).slot = false) (hb : b.ram = r₀) (d : Word) :
    ∃ b', rebase w' t d b = .ok t.count b' ∧ b.Happens b' (rewrites r₀ w w' t d 0 t.count) := by
  obtain ⟨b₁, hrun, hhappens⟩ := run_rebaseFrom hw hw' hdata ht hall (d := d) (i := 0)
    (n := t.count) (b := b) (by rw [hb]; exact Keeps.refl ..) (by omega) hspared
  obtain ⟨b', hrebase, hlog⟩ := exists_of_loop (by rwa [hb, within_iff]) hrun
  refine ⟨b', hrebase, ?_⟩
  rw [← List.append_nil (rewrites ..)]
  exact hhappens.trans hlog

/-- Apart from the data a table holds none of the slots in the data. -/
theorem Apart.run_rebase (h : t.Apart r₀ data) (hw : r₀.Shows w) (hw' : r₀.Shows w')
    (hdata : r₀.Has data.start.num (data.stop.num - data.start.num))
    (hall : ∀ j < t.count, Accepted data (t.record r₀ w j)) (hb : b.ram = r₀) (d : Word) :
    ∃ b', rebase w' t d b = .ok t.count b' ∧ b.Happens b' (rewrites r₀ w w' t d 0 t.count) :=
  Relocations.run_rebase hw hw' hdata h.stored hall
    (fun j hj => h.meets_eq_false (by omega) (hall j hj).low (hall j hj).high) hb d

/-- Wherever an accepted table lies, once it has been applied its records have been applied as they
were accepted. -/
theorem happens_of_rebase {b' : Board} (hw : r₀.Shows w) (hw' : r₀.Shows w')
    (hdata : r₀.Has data.start.num (data.stop.num - data.start.num))
    (hall : ∀ j < t.count, Accepted data (t.record r₀ w j)) (hb : b.ram = r₀)
    (hrun : rebase w' t d b = .ok n b') : b.Happens b' (rewrites r₀ w w' t d 0 t.count) := by
  cases hwithin : t.within b.ram with
  | false =>
    rw [rebase, run_bind_ok (run_get b), hwithin] at hrun
    cases hrun
  | true =>
    have ht : t.Stored r₀ := by rwa [hb, within_iff] at hwithin
    have hloop := hrun
    rw [rebase, run_bind_ok (run_get b), hwithin] at hloop
    obtain ⟨_, b₁, hloop, -⟩ := exists_of_run_bind hloop
    have hspared := spared_of_rebaseFrom hw hw' hdata ht hall (by rw [hb]; exact Keeps.refl ..)
      (Nat.le_of_eq (Nat.zero_add _)) hloop
    obtain ⟨b₂, hrun', hhappens⟩ := run_rebase hw hw' hdata ht hall
      (fun j hj => hspared j (Nat.zero_le j) (by omega)) hb d
    rw [hrun'] at hrun
    cases hrun
    exact hhappens

end Relocations

end HighHalf
