import HighHalf.Transition.Run
import HighHalf.Proofs.Board.Events
import HighHalf.Proofs.Tables.Ranges

/-!
# Areas that override each other

What is mapped during the move to the high half is a list of areas, each a run of whole pages
with a flag word. Where areas overlap the later one counts. Both halves show the areas: the low
half at their own addresses, the high half from `highBase` on.

## Main definitions

* `Area.overlay`: what a list of areas gives to an address
* `Laid`: the trees below the two roots hold the overlays of two lists of areas
* `Ledger.after`: the ledger with one more mapping, or one more that did not fit
-/

namespace HighHalf

/-- Whole pages from physical address `start` up to `stop`, shown with a flag word. -/
structure Area where
  start : Nat
  stop : Nat
  flags : Flags
deriving DecidableEq, Repr

namespace Area

/-- Whether the area has physical address `n`. -/
def covers (a : Area) (n : Nat) : Bool := a.start ≤ n && n < a.stop

/-- The leaf of the page around physical address `n`. -/
def leaf (n : Nat) (f : Flags) : Entry := ⟨UInt64.ofNat (n / 4096 * 4096) ||| f.bits⟩

/-- The leaf that physical address `n` has by the last of the areas that cover it; the empty
descriptor if none does. -/
def overlay (areas : List Area) (n : Nat) : Entry :=
  match areas.reverse.find? (·.covers n) with
  | some a => leaf n a.flags
  | none => .empty

/-- The whole pages around a range. -/
def around (r : PhysRange) (f : Flags) : Area where
  start := r.start.num / 4096 * 4096
  stop := (r.stop.num + 4095) / 4096 * 4096
  flags := f

/-- The page around an address. -/
def page (p : PhysAddr) (f : Flags) : Area where
  start := p.num / 4096 * 4096
  stop := p.num / 4096 * 4096 + 4096
  flags := f

variable {areas : List Area} {a : Area} {n : Nat}

@[simp] theorem overlay_nil (n : Nat) : overlay [] n = .empty := rfl

/-- The last area comes first. -/
theorem overlay_append (areas : List Area) (a : Area) (n : Nat) :
    overlay (areas ++ [a]) n =
      if a.start ≤ n ∧ n < a.stop then leaf n a.flags else overlay areas n := by
  rw [overlay, List.reverse_append, List.reverse_singleton, List.singleton_append, List.find?_cons]
  by_cases h : a.start ≤ n ∧ n < a.stop
  · have hcovers : a.covers n = true := by simpa [covers] using h
    rw [hcovers, if_pos h]
  · have hcovers : a.covers n = false := by
      rw [← Bool.not_eq_true]
      simpa [covers] using h
    rw [hcovers, if_neg h, overlay]

/-- An area without an address changes nothing. -/
theorem overlay_append_of_le (areas : List Area) (h : a.stop ≤ a.start) (n : Nat) :
    overlay (areas ++ [a]) n = overlay areas n := by
  rw [overlay_append, if_neg (by omega)]

theorem exists_last (h : a ∈ areas) (hc : a.covers n = true) :
    ∃ a', areas.reverse.find? (·.covers n) = some a' := by
  rw [← Option.isSome_iff_exists, List.find?_isSome]
  exact ⟨a, List.mem_reverse.2 h, hc⟩

/-- An address of an area has the leaf of some area that covers it. -/
theorem exists_overlay (h : a ∈ areas) (hc : a.covers n = true) :
    ∃ a' ∈ areas, a'.covers n = true ∧ overlay areas n = leaf n a'.flags := by
  obtain ⟨a', ha'⟩ := exists_last h hc
  refine ⟨a', List.mem_reverse.1 (List.mem_of_find?_eq_some ha'), ?_, ?_⟩
  · exact List.find?_some (p := fun x : Area => x.covers n) ha'
  · rw [overlay, ha']

/-- The first area does not count where a later one covers the address. -/
theorem overlay_cons_of_covers (first : Area) (h : a ∈ areas) (hc : a.covers n = true) :
    overlay (first :: areas) n = overlay areas n := by
  obtain ⟨a', ha'⟩ := exists_last h hc
  rw [overlay, overlay, List.reverse_cons, List.find?_append, ha', Option.some_or]

end Area

/-! ## The two halves -/

namespace Tables

variable {m m' : Memory} {root p : PhysAddr} {roots held : List PhysAddr} {start stop v : VirtAddr}
  {n top base : Nat} {f : Flags}

/-- The leaf of a page of a range that begins at virtual address `base` for physical address
0. -/
theorem leafOf_eq_leaf (ha : p.num % 4096 = 0) (hp : p.num ≤ n) (hn : n < 2 ^ 48) (f : Flags) :
    leafOf (p.up (4096 * ((n - p.num) / 4096))) f = Area.leaf n f := by
  have hnum : (p.up (4096 * ((n - p.num) / 4096))).num = n / 4096 * 4096 := by
    rw [PhysAddr.num_up (by omega)]
    omega
  rw [leafOf_eq (by omega) (by omega), Area.leaf, Entry.mk.injEq]
  congr 1
  apply UInt64.toNat_inj.1
  rw [UInt64.toNat_ofNat_of_lt' (by show n / 4096 * 4096 < 2 ^ 64; omega)]
  exact hnum

theorem leafOf_floor (hp : p.num < 2 ^ 48) (f : Flags) : leafOf p.floor f = Area.leaf p.num f := by
  have hfloor := p.num_floor
  have hword : p.floor.val.toNat = p.floor.num := rfl
  rw [leafOf_eq (by omega) (by omega), Area.leaf, ← hfloor, ← hword, UInt64.ofNat_toNat]

/-- The leaves of a range whose first page has virtual address `base + p`. -/
theorem painted_area (base top : Nat) (hs : start.num = base + p.num)
    (he : stop.num = base + top)
    (hbase : base = 0 ∨ base = 2 ^ 64 - 2 ^ 47) (htop : top < 2 ^ 47) (hask : Proper start stop p f)
    (hv : v.Canonical) (g : VirtAddr → Entry) :
    painted start p f 0 (pagesBetween start stop) g v =
      if base + p.num ≤ v.num ∧ v.num < base + top then Area.leaf (v.num - base) f else g v := by
  have hsa := hask.start_aligned
  have hso := hask.stop_aligned
  have hle := hask.le
  have hpages := pagesBetween_eq hle
  -- Both bases keep the range inside one half.
  have hcovers : Covers start (pagesBetween start stop) := by
    unfold Covers
    omega
  have hlen : stop.num = start.num + 4096 * pagesBetween start stop := by omega
  rw [painted_between hsa hcovers hlen hv, hs, he]
  by_cases hin : base + p.num ≤ v.num ∧ v.num < base + top
  · have hplace : v.num - (base + p.num) = v.num - base - p.num := by omega
    rw [if_pos hin, if_pos hin, hplace, leafOf_eq_leaf hask.frame_aligned (by omega) (by omega)]
  · rw [if_neg hin, if_neg hin]

end Tables

/-- Each half shows its own list of areas below its own root, and nothing of the other half. -/
structure Laid (m : Memory) (roots : Roots) (low high : List Area) : Prop where
  sound : m.Sound [roots.high, roots.low] []
  ne : roots.low ≠ roots.high
  low : ∀ v : VirtAddr, v.Canonical → m.lookup roots.low v =
    if v.num < 2 ^ 47 then Area.overlay low v.num else .empty
  high : ∀ v : VirtAddr, v.Canonical → m.lookup roots.high v =
    if v.num < 2 ^ 47 then .empty else Area.overlay high (v.num - (2 ^ 64 - 2 ^ 47))

section Laid

open Memory Tables Area

variable {m m' : Memory} {roots : Roots} {low high : List Area} {r : PhysRange} {a : Area}

theorem Laid.same (h : Laid m roots low high) (hs : m'.Sound [roots.high, roots.low] [])
    (hsame : SameLeaves m m' [roots.high, roots.low]) : Laid m' roots low high where
  sound := hs
  ne := h.ne
  low := fun v hv => (hsame roots.low (by simp) v).trans (h.low v hv)
  high := fun v hv => (hsame roots.high (by simp) v).trans (h.high v hv)

/-- An area is painted in the low half. -/
theorem Laid.paintLow (h : Laid m roots low high) (hs : m'.Sound [roots.high, roots.low] [])
    (htop : a.stop < 2 ^ 47)
    (hleaves : ∀ q ∈ [roots.high, roots.low], ∀ v : VirtAddr, v.Canonical → m'.lookup q v =
      if q = roots.low ∧ a.start ≤ v.num ∧ v.num < a.stop then leaf v.num a.flags
      else m.lookup q v) :
    Laid m' roots (low ++ [a]) high where
  sound := hs
  ne := h.ne
  low := by
    intro v hv
    rw [hleaves roots.low (by simp) v hv, h.low v hv, overlay_append]
    by_cases hin : a.start ≤ v.num ∧ v.num < a.stop
    · rw [if_pos ⟨rfl, hin⟩, if_pos (by omega), if_pos hin]
    · rw [if_neg fun c => hin c.2, if_neg hin]
  high := by
    intro v hv
    rw [hleaves roots.high (by simp) v hv, if_neg fun c => h.ne c.1.symm, h.high v hv]

/-- An area is painted in the high half. -/
theorem Laid.paintHigh (h : Laid m roots low high) (hs : m'.Sound [roots.high, roots.low] [])
    (hle : a.start ≤ a.stop)
    (hleaves : ∀ q ∈ [roots.high, roots.low], ∀ v : VirtAddr, v.Canonical → m'.lookup q v =
      if q = roots.high ∧ 2 ^ 64 - 2 ^ 47 + a.start ≤ v.num ∧ v.num < 2 ^ 64 - 2 ^ 47 + a.stop then
        leaf (v.num - (2 ^ 64 - 2 ^ 47)) a.flags
      else m.lookup q v) :
    Laid m' roots low (high ++ [a]) where
  sound := hs
  ne := h.ne
  low := by
    intro v hv
    rw [hleaves roots.low (by simp) v hv, if_neg fun c => h.ne c.1, h.low v hv]
  high := by
    intro v hv
    rw [hleaves roots.high (by simp) v hv, h.high v hv, overlay_append]
    -- A canonical address is in the low half or above 2 ^ 64 - 2 ^ 47.
    have hcanon := (v.canonical_iff).1 hv
    by_cases hin : 2 ^ 64 - 2 ^ 47 + a.start ≤ v.num ∧ v.num < 2 ^ 64 - 2 ^ 47 + a.stop
    · rw [if_pos ⟨rfl, hin⟩, if_neg (by omega), if_pos (by omega)]
    · rw [if_neg fun c => hin c.2]
      by_cases hlow : v.num < 2 ^ 47
      · rw [if_pos hlow, if_pos hlow]
      · rw [if_neg hlow, if_neg hlow, if_neg (by omega)]

/-- The two new roots hold nothing yet. -/
theorem laid_nil (hs : m.Sound [roots.high, roots.low] []) (hne : roots.low ≠ roots.high)
    (hlow : ∀ v, m.lookup roots.low v = .empty) (hhigh : ∀ v, m.lookup roots.high v = .empty) :
    Laid m roots [] [] where
  sound := hs
  ne := hne
  low := fun v _ => by rw [hlow v, overlay_nil, ite_self]
  high := fun v _ => by rw [hhigh v, overlay_nil, ite_self]

end Laid

/-! ## Mapping an area -/

/-- The ledger after a mapping has been recorded, or counted if it did not fit. -/
def Ledger.after (l : Ledger) (k : Mapping) : Ledger :=
  if l.records.size = ledgerLimit then { l with dropped := l.dropped + 1 }
  else { l with records := l.records.push k }

theorem Ledger.run_record (l : Ledger) (k : Mapping) (b : Board) :
    ∃ kept b', l.record k b = .ok (l.after k, kept) b' ∧ b.Happens b' [] := by
  unfold record after
  split
  · exact ⟨_, _, rfl, (List.append_nil _).symm, rfl, rfl, rfl⟩
  · exact ⟨_, _, rfl, Board.Happens.refl b⟩

/-- A record is an earlier one or that of the mapping. -/
theorem Ledger.mem_after {l : Ledger} {k n : Mapping} (h : n ∈ (l.after k).records) :
    n ∈ l.records ∨ n = k := by
  unfold after at h
  split at h
  · exact Or.inl h
  · exact Array.mem_push.1 h

/-- Recording a mapping changes the ledger and the log. -/
theorem Space.run_record (k : Mapping) (s : Space) :
    ∃ b, record k s = .ok () { s with
        memory := { s.memory with board := b }, ledger := s.ledger.after k } ∧
      s.memory.board.Happens b [] := by
  obtain ⟨kept, b, hrun, hnothing⟩ := s.ledger.run_record k s.memory.board
  refine ⟨b, ?_, hnothing⟩
  rw [record, run_bind_ok (run_get s)]
  exact run_bind_ok (run_board (s := s) hrun)

namespace Transition

open Memory Tables Area

variable {s s' : Space} {roots : Roots} {root : PhysAddr} {rs held : List PhysAddr} {name : String}
  {start : VirtAddr} {r : PhysRange} {f : Flags} {low high : List Area}

/-- What a region that was mapped leaves behind. -/
structure MapsInto (s s' : Space) (rs held : List PhysAddr) (root : PhysAddr) (start : VirtAddr)
    (r : PhysRange) (f : Flags) : Prop where
  grows : Grows s.memory s'.memory rs held
  proper : Proper start (start.add r.size) r.start f
  leaves : ∀ q ∈ rs, ∀ v, s'.memory.lookup q v =
    if q = root then
      painted start r.start f 0 (pagesBetween start (start.add r.size)) (s.memory.lookup q) v
    else s.memory.lookup q v
  records : ∀ n ∈ s'.ledger.records,
    n ∈ s.ledger.records ∨ n.phys = r.start ∧ n.start = start ∧ n.stop = start.add r.size
  supply : s.memory.supply ≤
    s'.memory.supply + tablesFor start (pagesBetween start (start.add r.size))

/-- Mapping a region once the range has been mapped. -/
theorem run_mapInto {n : Nat} {m : Memory} (name : String) (h : s.memory.Sound rs held)
    (hroot : root ∈ rs)
    (hrun : (mapRange root start (start.add r.size) r.start f).run s.memory = .ok (.ok n) m) :
    ∃ s', (mapInto root name start r f).run s = .ok (.ok ()) s' ∧
      MapsInto s s' rs held root start r f := by
  have hspec := mapRange_spec start (start.add r.size) r.start f h hroot
  rw [hrun] at hspec
  obtain ⟨hgrows, hproper, rfl, hsupply, hleaves⟩ := hspec
  obtain ⟨b, hrecord, hnothing⟩ :=
    Space.run_record ⟨name, start, start.add r.size, r.start, f⟩ (s.withMemory m)
  have hkeeps : Keeps m { m with board := b } := keeps_board hnothing.ram
  obtain ⟨hgrows', hsame⟩ := grows_spares hgrows.sound (hkeeps.spares hgrows.sound.consistent)
  have hdone : (mapInto root name start r f).run s = .ok (.ok ()) _ :=
    (run_bindE_ok (run_lift (Space.run_onMemory (s := s) hrun))).trans (run_lift hrecord)
  refine ⟨_, hdone, hgrows.trans hgrows', hproper, ?_, ?_, ?_⟩
  · exact fun q hq v => (hsame q hq v).trans (hleaves q hq v)
  · intro k hk
    rcases Ledger.mem_after hk with hk | rfl
    · exact Or.inl hk
    · exact Or.inr ⟨rfl, rfl, rfl⟩
  · show s.memory.supply ≤ ({ m with board := b } : Memory).supply + _
    rw [hkeeps.supply]
    exact hsupply

/-- A region that was mapped was properly asked for. -/
theorem proper_of_run (hrun : (mapInto root name start r f).run s = .ok (.ok ()) s') :
    Proper start (start.add r.size) r.start f := by
  obtain ⟨res, s₁, hrun₁, hrest⟩ := exists_of_run_bindE hrun
  obtain ⟨m, hm, rfl⟩ := Space.exists_of_onMemory (exists_of_lift hrun₁)
  by_contra hno
  obtain ⟨e, hrefused, -⟩ := run_mapRange_refused root hno
  rw [hrefused] at hm
  cases hm
  cases hrest

theorem mapsInto_of_run (h : s.memory.Sound rs held) (hroot : root ∈ rs)
    (hrun : (mapInto root name start r f).run s = .ok (.ok ()) s') :
    MapsInto s s' rs held root start r f := by
  obtain ⟨res, s₁, hrun₁, hrest⟩ := exists_of_run_bindE hrun
  obtain ⟨m, hm, rfl⟩ := Space.exists_of_onMemory (exists_of_lift hrun₁)
  rcases res with e | n
  · cases hrest
  · obtain ⟨s₂, hrun₂, hmaps⟩ := run_mapInto name h hroot hm
    rw [hrun₂] at hrun
    cases hrun
    exact hmaps

end Transition

end HighHalf
