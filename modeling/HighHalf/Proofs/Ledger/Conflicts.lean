import Mathlib.Data.Set.Card
import HighHalf.Proofs.Tables.Overlay

/-!
# Counting the mappings that disagree

Two mappings disagree where they show an address they share at different frames. Each of them keeps
the distance between virtual and physical address, so they disagree at every address they share or
at none, and it is enough to look at the lowest one. The audit of the ledger counts the pairs that
disagree somewhere; which of a pair was recorded first, and under which name, does not matter.

## Main definitions

* `Mapping.Sums`: no physical address of the mapping leaves 64 bits
* `Mapping.Disputes`: two mappings show some address at different frames
* `Ledger.disputed`: how many pairs of records do
* `Ledger.recordAll`: one mapping is recorded after the other
-/

namespace HighHalf

namespace Mapping

variable {a b k : Mapping} {u v : VirtAddr}

/-- The physical addresses of the mapping are words. A mapping that runs backwards has none. -/
def Sums (k : Mapping) : Prop := k.phys.num + (k.stop.num - k.start.num) ≤ 2 ^ 64

instance (k : Mapping) : Decidable k.Sums :=
  inferInstanceAs (Decidable (k.phys.num + (k.stop.num - k.start.num) ≤ 2 ^ 64))

/-- Both mappings cover `v`, and they show it at different physical addresses. -/
structure DisputedAt (a b : Mapping) (v : VirtAddr) : Prop where
  left : a.covers v = true
  right : b.covers v = true
  apart : ∃ p q, a.physFor v = .ok p ∧ b.physFor v = .ok q ∧ p ≠ q

/-- There is an address that the mappings show at different physical addresses. -/
def Disputes (a b : Mapping) : Prop := ∃ v, a.DisputedAt b v

theorem covers_iff : k.covers v = true ↔ k.start.num ≤ v.num ∧ v.num < k.stop.num := by
  rw [covers, Bool.and_eq_true, decide_eq_true_iff, decide_eq_true_iff, UInt64.le_iff_toNat_le,
    UInt64.lt_iff_toNat_lt]
  rfl

/-- Every address that a mapping covers has a physical address, as far from the mapping's first one
as the address itself. -/
theorem physFor_of_covers (h : k.Sums) (hv : k.covers v = true) :
    ∃ p, k.physFor v = .ok p ∧ p.num = k.phys.num + (v.num - k.start.num) := by
  rw [covers_iff] at hv
  have hnum : v.val.toNat = v.num := rfl
  have hnum' : k.start.val.toNat = k.start.num := rfl
  have hlen : (v.val - k.start.val).toNat = v.num - k.start.num :=
    UInt64.toNat_sub_of_le _ _ (UInt64.le_iff_toNat_le.2 hv.1)
  have hoffset : Word.sub v.val k.start.val = .ok (v.val - k.start.val) := by
    rw [Word.sub_eq_ok_iff]
    omega
  unfold Sums at h
  have hadd : k.phys.add (v.val - k.start.val) = .ok ⟨k.phys.val + (v.val - k.start.val)⟩ :=
    PhysAddr.add_of_lt (by omega)
  refine ⟨_, by rw [physFor, hoffset]; exact hadd, ?_⟩
  rw [PhysAddr.num_add hadd, hlen]

/-! ## Where two mappings disagree -/

/-- Mappings that share an address disagree there if their distances differ. -/
theorem disputedAt_iff (ha : a.Sums) (hb : b.Sums) (hva : a.covers v = true)
    (hvb : b.covers v = true) :
    a.DisputedAt b v ↔ a.phys.num + b.start.num ≠ b.phys.num + a.start.num := by
  obtain ⟨p, hp, hpnum⟩ := physFor_of_covers ha hva
  obtain ⟨q, hq, hqnum⟩ := physFor_of_covers hb hvb
  have hva' := covers_iff.1 hva
  have hvb' := covers_iff.1 hvb
  have hpq : p ≠ q ↔ a.phys.num + b.start.num ≠ b.phys.num + a.start.num := by
    rw [not_iff_not, show p = q ↔ p.num = q.num from ⟨congrArg _, PhysAddr.num_inj⟩]
    omega
  rw [← hpq]
  refine ⟨fun ⟨_, _, p', q', hp', hq', hne⟩ => ?_, fun hne => ⟨hva, hvb, p, q, hp, hq, hne⟩⟩
  rw [hp, Except.ok.injEq] at hp'
  rw [hq, Except.ok.injEq] at hq'
  rwa [hp', hq']

/-- Mappings that disagree anywhere share an address and disagree at every one they share. -/
theorem disputes_iff (ha : a.Sums) (hb : b.Sums) :
    a.Disputes b ↔ (∃ v, a.covers v = true ∧ b.covers v = true) ∧
      ∀ v, a.covers v = true → b.covers v = true → a.DisputedAt b v := by
  constructor
  · rintro ⟨u, hu⟩
    refine ⟨⟨u, hu.left, hu.right⟩, fun v hva hvb => ?_⟩
    rw [disputedAt_iff ha hb hva hvb]
    exact (disputedAt_iff ha hb hu.left hu.right).1 hu
  · rintro ⟨⟨v, hva, hvb⟩, hall⟩
    exact ⟨v, hall v hva hvb⟩

theorem DisputedAt.symm (h : a.DisputedAt b v) : b.DisputedAt a v := by
  obtain ⟨p, q, hp, hq, hne⟩ := h.apart
  exact ⟨h.right, h.left, q, p, hq, hp, hne.symm⟩

theorem disputes_comm : a.Disputes b ↔ b.Disputes a :=
  ⟨fun ⟨v, h⟩ => ⟨v, h.symm⟩, fun ⟨v, h⟩ => ⟨v, h.symm⟩⟩

/-- Mappings agree where they share an address as soon as they do not disagree. -/
theorem agree_of_not_disputes (ha : a.Sums) (hb : b.Sums) (h : ¬ a.Disputes b)
    (hva : a.covers v = true) (hvb : b.covers v = true) :
    ∃ p, a.physFor v = .ok p ∧ b.physFor v = .ok p := by
  obtain ⟨p, hp, -⟩ := physFor_of_covers ha hva
  obtain ⟨q, hq, -⟩ := physFor_of_covers hb hvb
  have heq : p = q := by
    by_contra hne
    exact h ⟨v, hva, hvb, p, q, hp, hq, hne⟩
  exact ⟨p, hp, heq ▸ hq⟩

/-- The shared address that is looked at is one that both mappings cover, and begins one of them. -/
theorem covers_of_shared (h : a.shared? b = some v) :
    a.covers v = true ∧ b.covers v = true ∧ (v = a.start ∨ v = b.start) := by
  have hle : ∀ u u' : VirtAddr, u.val ≤ u'.val ↔ u.num ≤ u'.num := fun _ _ => UInt64.le_iff_toNat_le
  have hlt : ∀ u u' : VirtAddr, u.val < u'.val ↔ u.num < u'.num := fun _ _ => UInt64.lt_iff_toNat_lt
  rw [covers_iff, covers_iff]
  unfold shared? at h
  by_cases hstart : a.start.val ≤ b.start.val <;> by_cases hstop : a.stop.val ≤ b.stop.val <;>
    simp only [hstart, hstop, if_true, if_false, Option.ite_none_right_eq_some,
      Option.some.injEq] at h <;>
    obtain ⟨hshare, rfl⟩ := h <;> rw [hlt] at hshare <;> rw [hle] at hstart hstop <;>
    refine ⟨by omega, by omega, by simp⟩

/-- Mappings that share any address share the one that is looked at. -/
theorem exists_shared (hva : a.covers v = true) (hvb : b.covers v = true) :
    ∃ u, a.shared? b = some u := by
  have hle : ∀ u u' : VirtAddr, u.val ≤ u'.val ↔ u.num ≤ u'.num := fun _ _ => UInt64.le_iff_toNat_le
  have hlt : ∀ u u' : VirtAddr, u.val < u'.val ↔ u.num < u'.num := fun _ _ => UInt64.lt_iff_toNat_lt
  rw [covers_iff] at hva hvb
  unfold shared?
  refine ⟨_, if_pos ?_⟩
  rw [hlt]
  split <;> split <;> omega

end Mapping

namespace Ledger

open Mapping

variable {l : Ledger} {a b k n : Mapping} {v : VirtAddr} {ms later records : List Mapping}

/-! ## The pairs that disagree -/

/-- The pairs of places, the earlier one first, whose records disagree. -/
def disputes (records : List Mapping) : Set (Nat × Nat) :=
  {p | p.1 < p.2 ∧ ∃ a b, records[p.1]? = some a ∧ records[p.2]? = some b ∧ a.Disputes b}

/-- How many pairs of records disagree. -/
noncomputable def disputed (records : List Mapping) : Nat := (disputes records).ncard

theorem finite_disputes (records : List Mapping) : (disputes records).Finite := by
  refine ((Set.finite_Iio records.length).prod (Set.finite_Iio records.length)).subset ?_
  rintro ⟨i, j⟩ ⟨-, a, b, hi, hj, -⟩
  exact ⟨(List.getElem?_eq_some_iff.1 hi).1, (List.getElem?_eq_some_iff.1 hj).1⟩

/-- The places of a list whose records disagree with `k`. -/
def disputants (k : Mapping) (later : List Mapping) : Set Nat :=
  {j | ∃ n, later[j]? = some n ∧ k.Disputes n}

theorem finite_disputants (k : Mapping) (later : List Mapping) : (disputants k later).Finite := by
  refine (Set.finite_Iio later.length).subset ?_
  rintro j ⟨n, hj, -⟩
  exact (List.getElem?_eq_some_iff.1 hj).1

theorem zero_notMem_image_succ (s : Set Nat) : 0 ∉ Nat.succ '' s := by
  rintro ⟨j, -, hj⟩
  cases hj

open Classical in
theorem ncard_disputants (k : Mapping) (later : List Mapping) :
    (disputants k later).ncard = later.countP fun n => k.Disputes n := by
  induction later with
  | nil =>
    have hempty : disputants k [] = ∅ := by
      ext j
      simp [disputants]
    rw [hempty, Set.ncard_empty, List.countP_nil]
  | cons n later ih =>
    have hsucc : (Nat.succ '' disputants k later).ncard = (disputants k later).ncard :=
      Set.ncard_image_of_injective _ Nat.succ_injective
    have hfinite := (finite_disputants k later).image Nat.succ
    rw [List.countP_cons, ← ih, ← hsucc]
    by_cases hn : k.Disputes n
    · have hcons : disputants k (n :: later) = insert 0 (Nat.succ '' disputants k later) := by
        ext j
        cases j <;> simp [disputants, hn]
      rw [hcons, Set.ncard_insert_of_notMem (zero_notMem_image_succ _) hfinite]
      simp [hn]
    · have hcons : disputants k (n :: later) = Nat.succ '' disputants k later := by
        ext j
        cases j <;> simp [disputants, hn]
      rw [hcons]
      simp [hn]

open Classical in
/-- The first record with the later ones, and those among each other. -/
theorem disputed_cons (k : Mapping) (later : List Mapping) :
    disputed (k :: later) = (later.countP fun n => k.Disputes n) + disputed later := by
  have hcons : disputes (k :: later) = (fun j => (0, j + 1)) '' disputants k later ∪
      (fun p : Nat × Nat => (p.1 + 1, p.2 + 1)) '' disputes later := by
    ext ⟨i, j⟩
    cases i <;> cases j <;> simp [disputes, disputants]
  have hapart : Disjoint ((fun j => (0, j + 1)) '' disputants k later)
      ((fun p : Nat × Nat => (p.1 + 1, p.2 + 1)) '' disputes later) := by
    rw [Set.disjoint_left]
    rintro p ⟨j, -, rfl⟩ ⟨q, -, hq⟩
    cases hq
  have hfirst : Function.Injective fun j : Nat => ((0, j + 1) : Nat × Nat) := by
    intro i j h
    simpa using h
  have hrest : Function.Injective fun p : Nat × Nat => ((p.1 + 1, p.2 + 1) : Nat × Nat) := by
    intro p q h
    simpa [Prod.ext_iff] using h
  rw [disputed, hcons, Set.ncard_union_eq hapart ((finite_disputants k later).image _)
    ((finite_disputes later).image _), Set.ncard_image_of_injective _ hfirst,
    Set.ncard_image_of_injective _ hrest, ncard_disputants]
  rfl

open Classical in
/-- The order of the records does not matter. -/
theorem disputed_perm {records' : List Mapping} (h : records'.Perm records) :
    disputed records' = disputed records := by
  induction h with
  | nil => rfl
  | cons k h ih => rw [disputed_cons, disputed_cons, h.countP_eq, ih]
  | swap a b later =>
    have hcomm : decide (a.Disputes b) = decide (b.Disputes a) := decide_eq_decide.2 disputes_comm
    simp only [disputed_cons, List.countP_cons, hcomm]
    omega
  | trans _ _ ih ih' => rw [ih, ih']

/-- Nor does anything that changes no disagreement. -/
theorem disputed_map {f : Mapping → Mapping} (h : ∀ a b, (f a).Disputes (f b) ↔ a.Disputes b)
    (records : List Mapping) : disputed (records.map f) = disputed records := by
  induction records with
  | nil => rfl
  | cons k later ih =>
    rw [List.map_cons, disputed_cons, disputed_cons, ih, List.countP_map]
    congr 2
    funext n
    exact decide_eq_decide.2 (h k n)

/-- No pair disagrees when the records that cover an address show it at one place. -/
theorem disputed_eq_zero_iff (hall : ∀ k ∈ records, k.Sums) :
    disputed records = 0 ↔ ∀ v, ∀ a ∈ records, ∀ b ∈ records, a.covers v = true →
      b.covers v = true → ∃ p, a.physFor v = .ok p ∧ b.physFor v = .ok p := by
  rw [disputed, Set.ncard_eq_zero (finite_disputes records), Set.eq_empty_iff_forall_notMem]
  constructor
  · intro hnone v a ha b hb hva hvb
    obtain ⟨i, hi⟩ := List.mem_iff_getElem?.1 ha
    obtain ⟨j, hj⟩ := List.mem_iff_getElem?.1 hb
    rcases Nat.lt_trichotomy i j with hij | rfl | hij
    · refine agree_of_not_disputes (hall a ha) (hall b hb) (fun h => ?_) hva hvb
      exact hnone (i, j) ⟨hij, a, b, hi, hj, h⟩
    · rw [hi, Option.some.injEq] at hj
      obtain ⟨p, hp, -⟩ := physFor_of_covers (hall a ha) hva
      exact ⟨p, hp, hj ▸ hp⟩
    · refine agree_of_not_disputes (hall a ha) (hall b hb) (fun h => ?_) hva hvb
      exact hnone (j, i) ⟨hij, b, a, hj, hi, disputes_comm.1 h⟩
  · rintro hagree ⟨i, j⟩ ⟨-, a, b, hi, hj, v, hdis⟩
    obtain ⟨p, q, hp, hq, hne⟩ := hdis.apart
    obtain ⟨p', hp', hq'⟩ := hagree v a (List.mem_of_getElem? hi) b (List.mem_of_getElem? hj)
      hdis.left hdis.right
    rw [hp, Except.ok.injEq] at hp'
    rw [hq, Except.ok.injEq] at hq'
    exact hne (hp'.trans hq'.symm)

/-! ## The audit -/

/-- One look tells whether two mappings disagree anywhere. -/
theorem run_disagree (ha : a.Sums) (hb : b.Sums) (board : Board) :
    ∃ found board', disagree a b board = .ok found board' ∧ (found = true ↔ a.Disputes b) := by
  unfold disagree
  cases hshared : a.shared? b with
  | none =>
    refine ⟨_, _, rfl, nofun, fun ⟨v, hv⟩ => ?_⟩
    obtain ⟨u, hu⟩ := exists_shared hv.left hv.right
    rw [hshared] at hu
    cases hu
  | some v =>
    obtain ⟨hva, hvb, -⟩ := covers_of_shared hshared
    obtain ⟨p, hp, -⟩ := physFor_of_covers ha hva
    obtain ⟨q, hq, -⟩ := physFor_of_covers hb hvb
    dsimp only
    rw [hp, hq, run_bind_ok (run_check p board), run_bind_ok (run_check q board)]
    by_cases heq : p = q
    · rw [if_pos heq]
      refine ⟨_, _, rfl, nofun, fun h => ?_⟩
      obtain ⟨p', q', hp', hq', hne⟩ := (((disputes_iff ha hb).1 h).2 v hva hvb).apart
      rw [hp, Except.ok.injEq] at hp'
      rw [hq, Except.ok.injEq] at hq'
      exact absurd (hp'.symm.trans (heq.trans hq')) hne
    · rw [if_neg heq]
      exact ⟨_, _, rfl, fun _ => ⟨v, hva, hvb, p, q, hp, hq, heq⟩, fun _ => rfl⟩

open Classical in
theorem run_disagreements (hk : k.Sums) (hall : ∀ n ∈ later, n.Sums) (board : Board) :
    ∃ board', disagreements k later board =
      .ok (later.countP fun n => k.Disputes n) board' := by
  induction later generalizing board with
  | nil => exact ⟨board, rfl⟩
  | cons n later ih =>
    rw [List.forall_mem_cons] at hall
    obtain ⟨here, board₁, hhere, hiff⟩ := run_disagree hk hall.1 board
    obtain ⟨board₂, hrest⟩ := ih hall.2 board₁
    refine ⟨board₂, (run_bind_ok hhere).trans ((run_bind_ok hrest).trans ?_)⟩
    rw [List.countP_cons]
    cases here with
    | true => simp [hiff.1 rfl, Nat.add_comm]
    | false =>
      have hno : ¬ k.Disputes n := fun h => absurd (hiff.2 h) (by decide)
      simp [hno]

/-- The audit counts the pairs that disagree. -/
theorem run_conflictsIn (hall : ∀ k ∈ records, k.Sums) (board : Board) :
    ∃ board', conflictsIn records board = .ok (disputed records) board' := by
  induction records generalizing board with
  | nil =>
    have hzero : disputed [] = 0 := (disputed_eq_zero_iff hall).2 (by simp)
    exact ⟨board, by rw [hzero]; rfl⟩
  | cons k later ih =>
    rw [List.forall_mem_cons] at hall
    obtain ⟨board₁, hhere⟩ := run_disagreements hall.1 hall.2 board
    obtain ⟨board₂, hrest⟩ := ih hall.2 board₁
    refine ⟨board₂, (run_bind_ok hhere).trans ((run_bind_ok hrest).trans ?_)⟩
    rw [disputed_cons]
    rfl

/-! ## The newest record -/

/-- The record that is found for an address is the last one that covers it. -/
theorem find_eq_some_iff : l.find v = some k ↔ k.covers v = true ∧
    ∃ before after, l.records.toList = before ++ k :: after ∧ ∀ n ∈ after, n.covers v = false := by
  rw [find, List.find?_eq_some_iff_append]
  refine and_congr_right fun _ => ⟨?_, ?_⟩
  · rintro ⟨newer, older, hsplit, hnewer⟩
    refine ⟨older.reverse, newer.reverse, ?_, fun n hn => ?_⟩
    · have h := congrArg List.reverse hsplit
      simpa using h
    · simpa using hnewer n (List.mem_reverse.1 hn)
  · rintro ⟨before, after, hsplit, hafter⟩
    refine ⟨after.reverse, before.reverse, by rw [hsplit]; simp, fun n hn => ?_⟩
    rw [hafter n (List.mem_reverse.1 hn)]
    rfl

theorem find_eq_none_iff : l.find v = none ↔ ∀ k ∈ l.records.toList, k.covers v = false := by
  rw [find, List.find?_eq_none]
  simp

/-! ## Recording -/

/-- Record one mapping after the other. -/
def recordAll (l : Ledger) : List Mapping → BoardM Ledger
  | [] => return l
  | k :: rest => do
    let (l', _) ← l.record k
    recordAll l' rest

/-- What has room is kept in its order, and the rest is counted. -/
theorem run_recordAll (ms : List Mapping) (hroom : l.records.size ≤ ledgerLimit) (board : Board) :
    ∃ l' board', recordAll l ms board = .ok l' board' ∧
      l'.records.toList = (l.records.toList ++ ms).take ledgerLimit ∧
      l'.dropped = l.dropped + (l.records.size + ms.length - ledgerLimit) := by
  induction ms generalizing l board with
  | nil =>
    refine ⟨l, board, rfl, ?_, by rw [List.length_nil]; omega⟩
    rw [List.append_nil, List.take_of_length_le (by rw [Array.length_toList]; exact hroom)]
  | cons k rest ih =>
    obtain ⟨kept, board₁, hrecord, -⟩ := l.run_record k board
    have hlen : l.records.toList.length = l.records.size := Array.length_toList
    by_cases hfull : l.records.size = ledgerLimit
    · have hafter : l.after k = { l with dropped := l.dropped + 1 } := if_pos hfull
      rw [hafter] at hrecord
      obtain ⟨l', board', hrest, hkept, hdropped⟩ :=
        ih (l := ⟨l.records, l.dropped + 1⟩) hroom board₁
      refine ⟨l', board', (run_bind_ok hrecord).trans hrest, ?_, ?_⟩
      · rw [hkept]
        dsimp only
        rw [List.take_append_of_le_length (by omega), List.take_append_of_le_length (by omega)]
      · rw [hdropped, List.length_cons]
        dsimp only
        omega
    · have hafter : l.after k = { l with records := l.records.push k } := if_neg hfull
      have hsize : (l.records.push k).size = l.records.size + 1 := Array.size_push ..
      rw [hafter] at hrecord
      obtain ⟨l', board', hrest, hkept, hdropped⟩ :=
        ih (l := ⟨l.records.push k, l.dropped⟩) (by dsimp only; omega) board₁
      refine ⟨l', board', (run_bind_ok hrecord).trans hrest, ?_, ?_⟩
      · rw [hkept, Array.toList_push, List.append_assoc, List.singleton_append]
      · rw [hdropped, List.length_cons]
        dsimp only
        omega

/-! ## All together -/

/-- The audit of the ledger is exact, and what is found is what was recorded last. -/
structure Exact (l : Ledger) : Prop where
  /-- The audit counts the pairs of records that disagree at some address. -/
  count : ∀ board, ∃ board', l.conflicts board = .ok (disputed l.records.toList) board'
  /-- They disagree at every address they share. -/
  everywhere : ∀ a ∈ l.records.toList, ∀ b ∈ l.records.toList, a.Disputes b ↔
    (∃ v, a.covers v = true ∧ b.covers v = true) ∧
      ∀ v, a.covers v = true → b.covers v = true → a.DisputedAt b v
  /-- In whatever order the same records were made, their number is the same. -/
  order : ∀ l' : Ledger, l'.records.toList.Perm l.records.toList →
    ∀ board, ∃ board', l'.conflicts board = .ok (disputed l.records.toList) board'
  /-- The names do not matter. -/
  names : ∀ g board, ∃ board',
    (l.rename g).conflicts board = .ok (disputed l.records.toList) board'
  /-- Nothing is counted when all records that cover an address agree on it. -/
  zero : disputed l.records.toList = 0 ↔ ∀ v, ∀ a ∈ l.records.toList, ∀ b ∈ l.records.toList,
    a.covers v = true → b.covers v = true → ∃ p, a.physFor v = .ok p ∧ b.physFor v = .ok p
  /-- The record that is found is the last one that covers the address. -/
  found : ∀ v k, l.find v = some k ↔ k.covers v = true ∧ ∃ before after,
    l.records.toList = before ++ k :: after ∧ ∀ n ∈ after, n.covers v = false
  /-- None is found for an address that no record covers. -/
  missing : ∀ v, l.find v = none ↔ ∀ k ∈ l.records.toList, k.covers v = false

theorem exact_of_sums (hall : ∀ k ∈ l.records.toList, k.Sums) : l.Exact where
  count := run_conflictsIn hall
  everywhere := fun a ha b hb => disputes_iff (hall a ha) (hall b hb)
  order := fun l' hperm board => by
    rw [← disputed_perm hperm]
    exact run_conflictsIn (fun k hk => hall k (hperm.mem_iff.1 hk)) board
  names := fun g board => by
    have hnames : ∀ a b : Mapping,
        ({ a with name := g a.name } : Mapping).Disputes { b with name := g b.name } ↔
          a.Disputes b :=
      fun a b => ⟨fun ⟨v, h⟩ => ⟨v, h.left, h.right, h.apart⟩,
        fun ⟨v, h⟩ => ⟨v, h.left, h.right, h.apart⟩⟩
    rw [← disputed_map hnames, ← Array.toList_map]
    refine run_conflictsIn (fun k hk => ?_) board
    rw [rename, Array.toList_map, List.mem_map] at hk
    obtain ⟨k', hk', rfl⟩ := hk
    exact hall k' hk'
  zero := disputed_eq_zero_iff hall
  found := fun _ _ => find_eq_some_iff
  missing := fun _ => find_eq_none_iff

/-- Whatever mappings are recorded, the first ones are kept as far as there is room and the others
are counted, and the audit of what was kept is exact. -/
theorem conflicts_exact (hms : ∀ k ∈ ms, k.Sums) (board : Board) :
    ∃ l board', recordAll {} ms board = .ok l board' ∧
      l.records.toList = ms.take ledgerLimit ∧ l.dropped = ms.length - ledgerLimit ∧ l.Exact := by
  obtain ⟨l, board', hrun, hkept, hdropped⟩ := run_recordAll (l := {}) ms (Nat.zero_le _) board
  rw [show (({} : Ledger).records.toList ++ ms) = ms from rfl] at hkept
  rw [show (({} : Ledger).dropped + (({} : Ledger).records.size + ms.length - ledgerLimit)) =
    ms.length - ledgerLimit by show 0 + (0 + ms.length - ledgerLimit) = _; omega] at hdropped
  refine ⟨l, board', hrun, hkept, hdropped, exact_of_sums fun k hk => ?_⟩
  rw [hkept] at hk
  exact hms k (List.mem_of_mem_take hk)

/-- Two mappings that disagree where they overlap, one inside the first of them that agrees with it,
one that runs backwards, and one whose frames end with the last word. -/
def sampleMappings : List Mapping :=
  [⟨"first", ⟨0x1000⟩, ⟨0x3000⟩, ⟨0x8000⟩, .data⟩, ⟨"second", ⟨0x2000⟩, ⟨0x4000⟩, ⟨0x2000⟩, .data⟩,
    ⟨"inner", ⟨0x1800⟩, ⟨0x2000⟩, ⟨0x8800⟩, .text⟩, ⟨"back", ⟨0x6000⟩, ⟨0x1000⟩, ⟨0x9000⟩, .data⟩,
    ⟨"last", ⟨0x5000⟩, ⟨0x6000⟩, ⟨0xFFFFFFFFFFFFF000⟩, .device⟩]

theorem conflicts_exact_sample : ∃ l board₁ board₂,
    recordAll {} sampleMappings Memory.sample.board = .ok l board₁ ∧
      l.records.toList = sampleMappings ∧ l.dropped = 0 ∧ l.Exact ∧
      l.conflicts board₁ = .ok 1 board₂ := by
  have hms : ∀ k ∈ sampleMappings, k.Sums := by decide
  obtain ⟨l, board₁, hrun, hkept, hdropped, hexact⟩ := conflicts_exact hms Memory.sample.board
  have hone : ∃ board', conflictsIn sampleMappings board₁ = .ok 1 board' := ⟨_, rfl⟩
  obtain ⟨board₂, hone⟩ := hone
  exact ⟨l, board₁, board₂, hrun, hkept, hdropped, hexact, by rw [conflicts, hkept]; exact hone⟩

end Ledger

end HighHalf
