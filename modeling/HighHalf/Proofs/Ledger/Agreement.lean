import HighHalf.Proofs.Ledger.Conflicts
import HighHalf.Proofs.Space.Answers
import HighHalf.Proofs.Space.Lending
import HighHalf.Proofs.Tables.Passes

/-!
# The ledger and the trees

No address is resolved through the ledger, and the ledger never looks at a tree. Still every
mapping that is made is recorded, and nothing else is. So as long as no record is lost and no page
is unmapped, the newest record that covers an address says which leaf the address has, and an
address that no record covers has none.

## Main definitions

* `Ledger.Agrees`: the ledger says which leaf each address has
* `Space.Filed`: the kernel is in the high half, and its ledger agrees with its trees
* `Lending.Follows`: what callers may do for the ledger to follow
-/

namespace HighHalf

open Event Board

/-! ## What a ledger says -/

/-- The ledger says of every canonical address which leaf it has. -/
structure Ledger.Agrees (l : Ledger) (leaf : VirtAddr → Entry) : Prop where
  /-- The newest record that covers an address gives its page a frame, and the leaf shows that
  frame with the flags of the record. -/
  covered : ∀ v : VirtAddr, v.Canonical → ∀ k, l.find v = some k →
    ∃ p, k.physFor v.floor = .ok p ∧ Entry.leaf p k.flags = .ok (leaf v)
  /-- The addresses without a leaf are those that no record covers. -/
  uncovered : ∀ v : VirtAddr, v.Canonical → (leaf v = .empty ↔ l.find v = none)

namespace Mapping

variable {k : Mapping} {v : VirtAddr}

/-- The frame that a record gives to the page of an address that it covers. -/
theorem physFor_floor (hv : v.Canonical) (ha : k.start.num % 4096 = 0)
    (hle : k.start.num ≤ v.num) (hroom : k.phys.num + (v.num - k.start.num) < 2 ^ 64) :
    k.physFor v.floor = .ok (k.phys.up (4096 * ((v.num - k.start.num) / 4096))) := by
  have hfloor : v.floor.val.toNat = v.num / 4096 * 4096 := VirtAddr.num_floor hv
  have hstart : k.start.val.toNat = k.start.num := rfl
  have hlt := v.num_lt
  have hsub : Word.sub v.floor.val k.start.val =
      .ok (UInt64.ofNat (4096 * ((v.num - k.start.num) / 4096))) := by
    have hsome : Word.sub? v.floor.val k.start.val =
        some (UInt64.ofNat (4096 * ((v.num - k.start.num) / 4096))) := by
      rw [Word.sub?_eq_some_iff, hfloor, hstart, UInt64.toNat_ofNat']
      omega
    rw [Word.sub, hsome]
  rw [physFor, hsub]
  rcases Tables.frameOf_spec k.phys ((v.num - k.start.num) / 4096) with hframe | ⟨-, hbig⟩
  · exact hframe
  · omega

end Mapping

namespace Ledger

variable {l : Ledger} {k : Mapping} {v : VirtAddr} {leaf leaf' : VirtAddr → Entry}

/-- A record that was not lost found room. -/
theorem kept_of_after (h : (l.after k).dropped = 0) :
    l.dropped = 0 ∧ l.records.size ≠ ledgerLimit := by
  unfold after at h
  split at h
  · cases h
  · exact ⟨h, ‹_›⟩

/-- No record was lost, and there are `n` at most. -/
structure Keeps (l : Ledger) (n : Nat) : Prop where
  dropped : l.dropped = 0
  size : l.records.size ≤ n

theorem Keeps.mono {n n' : Nat} (h : l.Keeps n) (hle : n ≤ n') : l.Keeps n' :=
  ⟨h.dropped, h.size.trans hle⟩

theorem Keeps.after {n : Nat} (h : l.Keeps n) (hroom : n < ledgerLimit) :
    (l.after k).Keeps (n + 1) := by
  have hsize := h.size
  rw [Ledger.after, if_neg (by omega)]
  refine ⟨h.dropped, ?_⟩
  rw [Array.size_push]
  omega

/-- The newest record comes first. -/
theorem find_after (hroom : l.records.size ≠ ledgerLimit) (v : VirtAddr) :
    (l.after k).find v = if k.covers v then some k else l.find v := by
  rw [after, if_neg hroom, find, Array.toList_push, List.reverse_append, List.reverse_singleton,
    List.singleton_append, List.find?_cons]
  cases k.covers v <;> rfl

theorem Agrees.congr (h : l.Agrees leaf) (hsame : ∀ v, leaf' v = leaf v) : l.Agrees leaf' := by
  rw [funext hsame]
  exact h

/-- Before anything is mapped. -/
theorem agrees_nil (hnone : ∀ v : VirtAddr, v.Canonical → leaf v = .empty) :
    ({} : Ledger).Agrees leaf where
  covered := nofun
  uncovered := fun v hv => ⟨fun _ => rfl, fun _ => hnone v hv⟩

/-- A mapping that is made and recorded is agreed on. -/
theorem Agrees.after (h : l.Agrees leaf) (hroom : l.records.size ≠ ledgerLimit)
    (hask : Tables.Proper k.start k.stop k.phys k.flags)
    (hframes : k.phys.num + (k.stop.num - k.start.num) ≤ 2 ^ 48)
    (hleaf : ∀ v : VirtAddr, v.Canonical → leaf' v =
      if k.start.num ≤ v.num ∧ v.num < k.stop.num then
        Tables.leafOf (k.phys.up (4096 * ((v.num - k.start.num) / 4096))) k.flags
      else leaf v) : (l.after k).Agrees leaf' := by
  have hin : ∀ v : VirtAddr, v.Canonical → k.covers v = true →
      ∃ p, k.physFor v.floor = .ok p ∧ Entry.leaf p k.flags = .ok (leaf' v) := by
    intro v hv hcovers
    rw [Mapping.covers_iff] at hcovers
    have hstart := hask.start_aligned
    have hframe := hask.frame_aligned
    refine ⟨_, Mapping.physFor_floor hv hstart hcovers.1 (by omega), ?_⟩
    rw [hleaf v hv, if_pos hcovers]
    refine Entry.leaf_eq ?_ hask.flags
    rw [PhysAddr.num_up (by omega)]
    omega
  have hout : ∀ v : VirtAddr, v.Canonical → ¬ k.covers v = true → leaf' v = leaf v := by
    intro v hv hcovers
    rw [Mapping.covers_iff] at hcovers
    rw [hleaf v hv, if_neg hcovers]
  refine ⟨fun v hv k' hfind => ?_, fun v hv => ?_⟩
  · rw [find_after hroom] at hfind
    by_cases hcovers : k.covers v = true
    · rw [if_pos hcovers] at hfind
      cases hfind
      exact hin v hv hcovers
    · rw [if_neg hcovers] at hfind
      rw [hout v hv hcovers]
      exact h.covered v hv k' hfind
  · rw [find_after hroom]
    by_cases hcovers : k.covers v = true
    · rw [if_pos hcovers]
      refine ⟨fun hempty => ?_, nofun⟩
      -- A leaf with complete flags is valid, so it is not the empty descriptor.
      rw [Mapping.covers_iff] at hcovers
      rw [hleaf v hv, if_pos hcovers] at hempty
      have hvalid := Entry.isLeaf_toLeaf hask.flags
        (p := k.phys.up (4096 * ((v.num - k.start.num) / 4096)))
      rw [show Entry.toLeaf _ k.flags = Entry.empty from hempty] at hvalid
      cases hvalid
    · rw [if_neg hcovers, hout v hv hcovers]
      exact h.uncovered v hv

end Ledger

/-! ## Memory and a ledger -/

namespace Memory

open Tables

/-- The leaf that the root of its half has for an address. -/
def leafOfHalf (m : Memory) (roots : Roots) (v : VirtAddr) : Entry :=
  m.lookup (if v.high then roots.high else roots.low) v

/-- If the ledger has lost no record, it agrees with the trees. -/
def Recorded (m : Memory) (roots : Roots) (l : Ledger) : Prop :=
  l.dropped = 0 → l.Agrees (m.leafOfHalf roots)

variable {m m' : Memory} {roots : Roots} {l : Ledger} {k : Mapping} {root p : PhysAddr}
  {start stop : VirtAddr} {f : Flags} {held : List PhysAddr}

theorem Recorded.same (h : m.Recorded roots l)
    (hsame : ∀ root ∈ [roots.high, roots.low], ∀ v, m'.lookup root v = m.lookup root v) :
    m'.Recorded roots l :=
  fun hkept => (h hkept).congr fun v => hsame _ (roots.mem_halves v) v

theorem Recorded.board {b : Board} (h : m.Recorded roots l) (hram : b.ram = m.board.ram) :
    Recorded ⟨b, m.frames⟩ roots l :=
  h.same fun root _ v => by simp only [Memory.lookup, hram]

/-- A range of one half that is painted below the root of that half, and recorded. -/
theorem Recorded.painted (h : m.Recorded roots l) (name : String) (hask : Proper start stop p f)
    (hcovers : Covers start (pagesBetween start stop))
    (hframes : p.num + (stop.num - start.num) ≤ 2 ^ 48)
    (hhalf : ∀ v : VirtAddr, v.Canonical → start.num ≤ v.num → v.num < stop.num →
      (if v.high then roots.high else roots.low) = root)
    (hleaves : ∀ q ∈ [roots.high, roots.low], ∀ v, m'.lookup q v =
      if q = root then Tables.painted start p f 0 (pagesBetween start stop) (m.lookup q) v
      else m.lookup q v) : m'.Recorded roots (l.after ⟨name, start, stop, p, f⟩) := by
  intro hkept
  obtain ⟨hbefore, hroom⟩ := Ledger.kept_of_after hkept
  have hstart := hask.start_aligned
  have hstop := hask.stop_aligned
  have hle := hask.le
  have hpages := pagesBetween_eq hle
  have hlen : stop.num = start.num + 4096 * pagesBetween start stop := by omega
  refine (h hbefore).after hroom hask hframes fun v hv => ?_
  rw [leafOfHalf, hleaves _ (roots.mem_halves v) v,
    painted_between hstart hcovers hlen hv]
  by_cases hin : start.num ≤ v.num ∧ v.num < stop.num
  · rw [if_pos hin, if_pos hin, if_pos (hhalf v hv hin.1 hin.2)]
  · rw [if_neg hin, if_neg hin, ite_self]
    rfl

/-- A range that could not be mapped leaves every leaf as it was. -/
theorem sameLeaves_of_failed {roots : List PhysAddr} {e : MapError} (h : Sound m roots held)
    (hroot : root ∈ roots) (hroom : p.num + (stop.num - start.num) ≤ 2 ^ 48)
    (hrun : (mapRange root start stop p f).run m = .ok (.error e) m') : SameLeaves m m' roots := by
  by_cases hask : Proper start stop p f
  · obtain ⟨r₁, m₁, hfirst, -, hsame, -⟩ :=
      makeLeafTables_spec start 0 (leafTables start (pagesBetween start stop)) h hroot
    rcases r₁ with e | _
    · rw [run_mapRange_proper root hask m, run_bindE_fail hfirst] at hrun
      cases hrun
      exact hsame
    · -- Once all tables are there, nothing can fail.
      obtain ⟨m₂, hdone, -⟩ := mapRange_of_firstPass h hroot hask hroom hfirst
      cases hdone.symm.trans hrun
  · obtain ⟨e', hrefused, -⟩ := run_mapRange_refused root hask
    cases (hrefused m).symm.trans hrun
    exact fun _ _ _ => rfl

end Memory

/-! ## The boot -/

/-- No region reaches the last page that has a high alias. -/
structure ImageLayout.Below (c : MemoryConfig) (l : ImageLayout) : Prop where
  text : l.text.stop.num ≤ 2 ^ 47 - 4096
  rodata : l.rodata.stop.num ≤ 2 ^ 47 - 4096
  data : l.data.stop.num ≤ 2 ^ 47 - 4096
  stack : l.stack.stop.num ≤ 2 ^ 47 - 4096
  vectors : l.vectors.num < 2 ^ 47 - 4096
  continuation : l.continuation.num < 2 ^ 47 - 4096
  uart : c.uart.num < 2 ^ 47 - 4096

theorem ImageLayout.Below.region {c : MemoryConfig} {l : ImageLayout} {regions : List Region}
    (h : l.Below c) (hall : Region.all c l = .ok regions) :
    ∀ region ∈ regions, region.range.stop.num ≤ 2 ^ 47 - 4096 := by
  obtain ⟨v, k, u, hv, hk, hu, rfl⟩ := Region.all_eq_ok hall
  have hvectors := (PhysRange.num_pageOf hv).2
  have hcontinuation := (PhysRange.num_pageOf hk).2
  have huart := (PhysRange.num_pageOf hu).2
  have h₁ := h.vectors
  have h₂ := h.continuation
  have h₃ := h.uart
  simp only [List.forall_mem_cons]
  exact ⟨h.text, h.rodata, h.data, h.stack, by omega, by omega, by omega, nofun⟩

namespace Transition

open Memory Tables

variable {c : MemoryConfig} {l : ImageLayout} {s s' : Space} {roots : Roots} {root : PhysAddr}
  {rs : List PhysAddr} {name : String} {start : VirtAddr} {r : PhysRange} {f : Flags}
  {region : Region} {regions : List Region}

/-- A region that was mapped is recorded. -/
theorem ledger_of_mapInto (hrun : (mapInto root name start r f).run s = .ok (.ok ()) s') :
    s'.ledger = s.ledger.after ⟨name, start, start.add r.size, r.start, f⟩ := by
  obtain ⟨res, s₁, hmap, hrest⟩ := exists_of_run_bindE hrun
  obtain ⟨m, -, rfl⟩ := Space.exists_of_onMemory (exists_of_lift hmap)
  cases res with
  | error e => cases hrest
  | ok n =>
    obtain ⟨b, hrecord, -⟩ := Space.run_record ⟨name, start, start.add r.size, r.start, f⟩
      (s.withMemory m)
    cases (run_lift hrecord).symm.trans hrest
    rfl

theorem keeps_mapInto {n : Nat} (h : s.ledger.Keeps n) (hroom : n < ledgerLimit)
    (hrun : (mapInto root name start r f).run s = .ok (.ok ()) s') : s'.ledger.Keeps (n + 1) := by
  rw [ledger_of_mapInto hrun]
  exact h.after hroom

theorem keeps_mapTwice {n : Nat} {high : Word} (h : s.ledger.Keeps n)
    (hroom : n + 2 ≤ ledgerLimit) (hrun : (mapTwice roots high region).run s = .ok (.ok ()) s') :
    s'.ledger.Keeps (n + 2) := by
  obtain ⟨w, -, ⟨-, rfl⟩ | ⟨-, s₁, hlow, hhigh⟩⟩ := stages_of_mapTwice hrun
  · exact h.mono (by omega)
  · exact keeps_mapInto (keeps_mapInto h (by omega) hlow) (by omega) hhigh

theorem keeps_mapAllTwice {n : Nat} {high : Word} (h : s.ledger.Keeps n)
    (hroom : n + 2 * regions.length ≤ ledgerLimit)
    (hrun : (mapAllTwice roots high regions).run s = .ok (.ok ()) s') :
    s'.ledger.Keeps (n + 2 * regions.length) := by
  induction regions generalizing s n with
  | nil =>
    cases hrun
    exact h
  | cons region rest ih =>
    rw [List.length_cons] at hroom
    unfold mapAllTwice at hrun
    obtain ⟨_, s₁, hfirst, hrest⟩ := exists_of_run_bindE hrun
    refine (ih (keeps_mapTwice h (by omega) hfirst) (by omega) hrest).mono ?_
    rw [List.length_cons]
    omega

/-- The ledger has room for all that the move maps. -/
theorem keeps_mapDual (h : s.ledger.Keeps 0)
    (hrun : (mapDual c l roots).run s = .ok (.ok ()) s') : s'.ledger.Keeps 15 := by
  obtain ⟨regions, s₁, s₂, b, hregions, hram, hall, rfl, -⟩ := stages_of_mapDual hrun
  have hcount : regions.length = 7 := by
    obtain ⟨v, k, u, -, -, -, rfl⟩ := Region.all_eq_ok hregions
    rfl
  have hkeeps := keeps_mapAllTwice (keeps_mapInto h (by decide) hram)
    (by rw [hcount]; decide) hall
  rw [hcount] at hkeeps
  exact hkeeps

/-- A range that is mapped at its own addresses. -/
theorem recorded_low (h : s.memory.Sound [roots.high, roots.low] [])
    (htop : r.stop.num < 2 ^ 47) (hle : r.start.num ≤ r.stop.num)
    (hrun : (mapInto roots.low name r.start.identity r f).run s = .ok (.ok ()) s')
    (hrecorded : s.memory.Recorded roots s.ledger) : s'.memory.Recorded roots s'.ledger := by
  have hmaps := mapsInto_of_run h (by simp) hrun
  have hstart := VirtAddr.num_identity (p := r.start) (by omega)
  have hstop := PhysRange.num_identity_stop hle htop
  have hpages := pagesBetween_eq hmaps.proper.le
  rw [ledger_of_mapInto hrun]
  refine hrecorded.painted name hmaps.proper (Or.inl (by omega)) (by omega)
    (fun v hv _ hhigh => ?_) hmaps.leaves
  have hhalf := VirtAddr.high_iff hv
  rw [if_neg (by rw [hhalf]; omega)]

/-- A range that is mapped at its high aliases. -/
theorem recorded_high (h : s.memory.Sound [roots.high, roots.low] [])
    (htop : r.stop.num < 2 ^ 47) (hle : r.start.num ≤ r.stop.num)
    (hrun : (mapInto roots.high name (r.start.highAlias highBase) r f).run s = .ok (.ok ()) s')
    (hrecorded : s.memory.Recorded roots s.ledger) : s'.memory.Recorded roots s'.ledger := by
  have hmaps := mapsInto_of_run h (by simp) hrun
  have hstart := VirtAddr.num_highAlias (p := r.start) (by omega)
  have hstop := PhysRange.num_highAlias_stop hle htop
  have hpages := pagesBetween_eq hmaps.proper.le
  rw [ledger_of_mapInto hrun]
  refine hrecorded.painted name hmaps.proper (Or.inr (by omega)) (by omega)
    (fun v hv hlow _ => ?_) hmaps.leaves
  have hhalf := VirtAddr.high_iff hv
  rw [if_pos (by rw [hhalf]; omega)]

theorem recorded_mapTwice (h : s.memory.Sound [roots.high, roots.low] [])
    (htop : region.range.stop.num ≤ 2 ^ 47 - 4096)
    (hrun : (mapTwice roots highBase region).run s = .ok (.ok ()) s')
    (hrecorded : s.memory.Recorded roots s.ledger) : s'.memory.Recorded roots s'.ledger := by
  obtain ⟨r, hr, ⟨-, rfl⟩ | ⟨hempty, s₁, hlow, hhigh⟩⟩ := stages_of_mapTwice hrun
  · exact hrecorded
  · have hstop := (PhysRange.num_widened hr).2
    rw [PhysRange.isEmpty_iff] at hempty
    have hgrows := (mapsInto_of_run h (by simp) hlow).grows
    exact recorded_high hgrows.sound (by omega) (by omega) hhigh
      (recorded_low h (by omega) (by omega) hlow hrecorded)

theorem recorded_mapAllTwice (h : s.memory.Sound [roots.high, roots.low] [])
    (htop : ∀ region ∈ regions, region.range.stop.num ≤ 2 ^ 47 - 4096)
    (hrun : (mapAllTwice roots highBase regions).run s = .ok (.ok ()) s')
    (hrecorded : s.memory.Recorded roots s.ledger) : s'.memory.Recorded roots s'.ledger := by
  induction regions generalizing s with
  | nil =>
    cases hrun
    exact hrecorded
  | cons region rest ih =>
    rw [List.forall_mem_cons] at htop
    unfold mapAllTwice at hrun
    obtain ⟨_, s₁, hfirst, hrest⟩ := exists_of_run_bindE hrun
    exact ih (mapTwice_spec h hfirst).1.sound htop.2 hrest
      (recorded_mapTwice h htop.1 hfirst hrecorded)

theorem recorded_mapDual (hwidth : c.highBase = highBase) (hbelow : l.Below c)
    (hle : c.memory.start.num ≤ c.memory.stop.num) (htop : c.memory.stop.num < 2 ^ 47)
    (h : s.memory.Sound [roots.high, roots.low] [])
    (hrun : (mapDual c l roots).run s = .ok (.ok ()) s')
    (hrecorded : s.memory.Recorded roots s.ledger) : s'.memory.Recorded roots s'.ledger := by
  obtain ⟨regions, s₁, s₂, b, hregions, hram, hall, rfl, hb⟩ := stages_of_mapDual hrun
  rw [hwidth] at hram hall
  have hgrows := (mapsInto_of_run h (by simp) hram).grows
  have hdone := recorded_mapAllTwice hgrows.sound (hbelow.region hregions) hall
    (recorded_high h htop hle hram hrecorded)
  exact hdone.board hb

/-- Up to the switch, what is mapped is recorded, and no record is lost. -/
theorem recorded_of_prepare (h : s.memory.Sound [] []) (hledger : s.ledger = {})
    (hbelow : l.Below c) (hle : c.memory.start.num ≤ c.memory.stop.num)
    (htop : c.memory.stop.num < 2 ^ 47) (hrun : (prepare c l).run s = .ok (.ok roots) s') :
    s'.memory.Recorded roots s'.ledger ∧ s'.ledger.dropped = 0 := by
  obtain ⟨hwidth, s₁, s₂, s₃, hbuild, hdual, hcheck, henable⟩ := stages_of_prepare hrun
  have hhigh := MemoryConfig.highBase_of_width hwidth
  obtain ⟨m₁, rfl, hempty, -⟩ := laid_of_buildRoots h hbuild
  obtain ⟨-, b₃, rfl, hram₃⟩ := checks_of_run hhigh hcheck
  obtain ⟨b₄, es, u, q, rfl, harms, hquiet, hhappens⟩ := exists_of_enable hwidth henable
  have hram₄ : b₄.ram = b₃.ram := harms.ram_eq hquiet hhappens
  have hnone : m₁.Recorded roots s.ledger := by
    rw [hledger]
    refine fun _ => Ledger.agrees_nil fun v hv => ?_
    rw [leafOfHalf]
    split
    · exact (hempty.high v hv).trans (ite_self _)
    · exact (hempty.low v hv).trans (ite_self _)
  have hfirst : s.ledger.Keeps 0 := by
    rw [hledger]
    exact ⟨rfl, Nat.le_refl 0⟩
  have hkeeps := keeps_mapDual (s := s.withMemory m₁) hfirst hdual
  exact ⟨((recorded_mapDual hhigh hbelow hle htop hempty.sound hdual hnone).board hram₃).board
    hram₄, hkeeps.dropped⟩

end Transition

/-! ## The switch records nothing -/

/-- The ledger is the same. -/
def Space.SameLedger (s s' : Space) : Prop := s'.ledger = s.ledger

instance : Std.Refl Space.SameLedger := ⟨fun _ => rfl⟩

instance : IsTrans Space Space.SameLedger := ⟨fun _ _ _ h h' => h'.trans h⟩

theorem Space.sameLedger_onMemory {ε α : Type} (x : EStateM ε Memory α) :
    Ensures SameLedger (onMemory x) := by
  refine ⟨fun hrun => ?_⟩
  obtain ⟨m, -, rfl⟩ := exists_of_onMemory hrun
  rfl

theorem Space.sameLedger_board {α : Type} (x : BoardM α) :
    Ensures SameLedger (liftM x : SpaceM α) :=
  sameLedger_onMemory _

namespace Transition

open Space

variable (c : MemoryConfig) (l : ImageLayout)

theorem sameLedger_collapse (d : Word) : Ensures SameLedger (collapse c l d) := by
  unfold collapse
  refine ensures_bind ensures_get fun s => ensures_bind (sameLedger_board _) fun there => ?_
  refine ensures_bind (sameLedger_onMemory _) fun _ => ensures_bind ensures_get fun s => ?_
  refine ensures_bind (sameLedger_board _) fun _ => ensures_bind ensures_get fun s => ?_
  refine ensures_bind (sameLedger_board _) fun _ => ensures_bind (sameLedger_board _) fun _ => ?_
  refine ensures_bind (sameLedger_board _) fun _ => ensures_bind ?_ fun _ => sameLedger_board _
  refine ⟨fun hrun => ?_⟩
  cases hrun
  rfl

theorem sameLedger_complete : Ensures SameLedger (complete c l) := by
  unfold complete
  refine ensures_bind (sameLedger_board _) fun d => ensures_bind (sameLedger_board _) fun _ => ?_
  refine ensures_bind (sameLedger_board _) fun _ => ?_
  exact ensures_bind (sameLedger_collapse ..) fun _ => ensures_pure d

end Transition

/-! ## Requests for mappings -/

namespace Space

open Memory Tables

/-- The kernel is in the high half, and the ledger agrees with the trees. -/
structure Filed (s : Space) (roots : Roots) : Prop where
  kept : s.roots = some roots
  live : s.live = .highOnly
  high : s.config.highBase = highBase
  recorded : s.memory.Recorded roots s.ledger

variable {c : MemoryConfig} {l : ImageLayout} {b : Board} {w : Window} {n : Nat}
  {s s' : Space} {roots : Roots} {root p : PhysAddr} {held : List PhysAddr} {name : String}
  {start stop v : VirtAddr} {f : Flags} {m : Memory}

/-- Nothing is recorded, and nothing changes in the trees. -/
theorem Filed.same (h : s.Filed roots) (hserved : Served s s') (hledger : s'.ledger = s.ledger)
    (hsame : ∀ root ∈ [roots.high, roots.low], ∀ v,
      s'.memory.lookup root v = s.memory.lookup root v) : s'.Filed roots := by
  have hrecorded : s'.memory.Recorded roots s'.ledger := by
    rw [hledger]
    exact h.recorded.same hsame
  obtain ⟨m, ledger, rfl⟩ := hserved.kept
  exact ⟨h.kept, h.live, h.high, hrecorded⟩

theorem Filed.looked (h : s.Filed roots) (hlooked : Looked s s') : s'.Filed roots := by
  have hram := hlooked.reads.ram
  obtain ⟨b, rfl⟩ := hlooked.kept
  exact ⟨h.kept, h.live, h.high, h.recorded.board hram⟩

/-- After the mapper has left `m`, all that is left to do is to record. -/
theorem Filed.answered {ledger : Ledger} (h : s.Filed roots) (hanswer : Answered s s' m ledger)
    (hrecorded : m.Recorded roots ledger) : s'.Filed roots := by
  have hram := hanswer.ram
  obtain ⟨b, rfl⟩ := hanswer.kept
  exact ⟨h.kept, h.live, h.high, hrecorded.board hram⟩

/-- Once the low half is not walked any more, ranges are mapped below the high root. -/
theorem high_of_rootFor (hroots : s.roots = some roots) (hlive : s.live = .highOnly)
    (h : s.rootFor start stop = .ok root) : root = roots.high ∧ start.high = true := by
  unfold rootFor at h
  rw [hroots] at h
  dsimp only at h
  rw [if_pos hlive] at h
  split at h
  case h_1 hstart _ =>
    cases h
    exact ⟨rfl, hstart⟩
  all_goals cases h

/-- A request for a mapping records what it maps, and only that. -/
theorem Filed.mapNamed {r : Except MapError Nat} (h : s.Filed roots) (hmode : s.mode = .resolved)
    (hs : s.memory.Sound [roots.high, roots.low] held) (hstart : start.Canonical)
    (hroom : p.num + (stop.num - start.num) ≤ 2 ^ 48)
    (hrun : (mapNamed name start stop p f).run s = .ok r s') : s'.Filed roots := by
  rcases cases_of_mapNamed hmode hrun with ⟨e, -, -, rfl⟩ | ⟨root, m, hroot, hmap, hanswer⟩
  · exact h
  obtain ⟨rfl, hhigh⟩ := high_of_rootFor h.kept h.live hroot
  rw [VirtAddr.high_iff hstart] at hhigh
  rcases hanswer with ⟨e, rfl, hanswer⟩ | ⟨k, rfl, hanswer⟩
  · exact h.answered hanswer (h.recorded.same (sameLeaves_of_failed hs (by simp) hroom hmap))
  · have hmem : roots.high ∈ [roots.high, roots.low] := List.mem_cons_self
    have hspec := mapRange_spec start stop p f hs hmem
    rw [show (Tables.mapRange roots.high start stop p f).run s.memory = .ok (.ok k) m from hmap]
      at hspec
    obtain ⟨-, hask, rfl, -, hleaves⟩ := hspec
    have hstop := stop.num_lt
    have hle := hask.le
    have hpages := pagesBetween_eq hle
    refine h.answered hanswer (h.recorded.painted name hask (Or.inr (by omega)) hroom
      (fun v hv hlow _ => ?_) hleaves)
    have hhalf := VirtAddr.high_iff hv
    rw [if_pos (by rw [hhalf]; omega)]

/-- The pages of a device have high aliases. -/
theorem devicePages_lt {size : Word} {r : PhysRange} (h : devicePages p size = some r) :
    r.start.num < 2 ^ 47 ∧ r.stop.num < 2 ^ 47 := by
  obtain ⟨hfits, hstart, hstop⟩ := num_devicePages h
  omega

theorem Filed.mapDevice {r : Except MapError Nat} {size : Word} (h : s.Filed roots)
    (hmode : s.mode = .resolved) (hs : s.memory.Sound [roots.high, roots.low] held)
    (hrun : (mapDevice p size).run s = .ok r s') : s'.Filed roots := by
  unfold Space.mapDevice at hrun
  split at hrun
  · cases hrun
    exact h
  · next pages hpages =>
    obtain ⟨hstart, hstop⟩ := devicePages_lt hpages
    have hcanonical : (pages.start.highAlias highBase).Canonical := VirtAddr.canonical_ofWord _
    rw [run_bindE_ok (run_getE s), h.high] at hrun
    refine h.mapNamed hmode hs hcanonical ?_ hrun
    rw [VirtAddr.num_highAlias hstart, VirtAddr.num_highAlias hstop]
    omega

/-- A page that is not unmapped stays as it is. -/
theorem Filed.unmap {e : MapError} (h : s.Filed roots) (hmode : s.mode = .resolved)
    (hs : s.memory.Sound [roots.high, roots.low] held)
    (hrun : (unmap v).run s = .ok (.error e) s') : s'.Filed roots := by
  rcases cases_of_unmap hmode hrun with ⟨_, -, -, rfl⟩ | ⟨root, o, m, hroot, hunmap, hanswer⟩
  · exact h
  rcases hanswer with ⟨e', rfl, -, rfl⟩ | ⟨old, -, hdone, -⟩
  · rcases unmapPage_spec v.floor hs (mem_of_rootFor h.kept hroot) with ⟨hno, -⟩ | ⟨m', hyes, -⟩
    · cases hunmap.symm.trans hno
      exact h
    · cases hunmap.symm.trans hyes
  · cases hdone

/-- After a boot that ends in the high half the low half is not walked any more, and the
configuration is what it was. -/
theorem live_of_boot (hboot : boot (asked c l b w n) = .ok .resolved s) :
    s.live = .highOnly ∧ s.config = c := by
  obtain ⟨m, s₁, s₂, -, rfl, ⟨arrival, hmove, henter, -⟩ | ⟨a, -, -, hmode⟩⟩ :=
    boot_cases rfl hboot
  · have hlive := Transition.live_of_run hmove
    obtain ⟨m', ledger, v, rfl⟩ := (Transition.cautious_run ..).moving.of_ok hmove
    cases henter
    exact ⟨hlive, rfl⟩
  · cases hmode

/-- A boot that ends in the high half has lost no record. -/
theorem filed_of_boot (h : Transition.Hosted c l b w) (hbelow : l.Below c)
    (htop : c.memory.stop.num < 2 ^ 47) (hboot : boot (asked c l b w n) = .ok .resolved s) :
    ∃ roots, s.Filed roots ∧ s.ledger.dropped = 0 := by
  obtain ⟨m₁, s₂, roots, d, s₃, q, hsetup, hprepare, hcomplete, hroots, hframes, hledger, hquiet,
    hlast⟩ := exists_of_boot hboot
  obtain ⟨s₁, hpassed, henable, hwidth⟩ := passed_of_prepare h (by omega) hsetup hprepare
  obtain ⟨x, hcrossed⟩ :=
    crossed_of_complete hpassed hwidth henable hcomplete hroots hframes hquiet hlast
  have henabled := enabled_of_run hpassed hwidth henable
  have hle := le_of_setup hsetup
  obtain ⟨hstart, -⟩ := Transition.aligned_of_prepare hprepare hle
  have hset := setup_spec ⟨rfl, rfl, rfl, hstart, h.shows, h.inside⟩ hsetup
  obtain ⟨hrecorded, hdropped⟩ := Transition.recorded_of_prepare
    (sound_of_setup hset hle (by omega)) rfl hbelow hle htop hprepare
  -- The switch changes neither the trees nor the ledger.
  have hkept : s.ledger = s₂.ledger :=
    hledger.trans ((Transition.sameLedger_complete c l).of_ok hcomplete)
  have hsame : ∀ root ∈ [roots.high, roots.low], ∀ v,
      s.memory.lookup root v = s₂.memory.lookup root v := by
    intro root hroot v
    rw [lookup_of_crossed hpassed hcrossed hroot v]
    simp only [Memory.lookup, henabled.frames, henabled.ram]
  obtain ⟨hlive, hconfig⟩ := live_of_boot hboot
  refine ⟨roots, ⟨hroots, hlive, ?_, ?_⟩, ?_⟩
  · rw [hconfig]
    exact MemoryConfig.highBase_of_width hwidth
  · rw [hkept]
    exact hrecorded.same hsame
  · rw [hkept]
    exact hdropped

end Space

/-! ## Runs -/

namespace Lending

open Space Memory Tables

/-- What asks for mappings at canonical addresses, and of frames that 48 bits can name. -/
def Asks : Call → Prop
  | .mapRange start stop p _ => start.Canonical ∧ p.num + (stop.num - start.num) ≤ 2 ^ 48
  | .unmap _ => False
  | call => call.Plain

theorem Asks.plain {call : Call} (h : Asks call) : call.Plain := by
  cases call with
  | allocate => exact h
  | release p => exact h
  | _ => exact trivial

/-- What callers do for the ledger to keep up: they give back only frames that they hold, and if
they try to unmap a page, it is refused. -/
inductive Follows : Lending → Lending → Prop
  | trade {x y : Lending} : Trades x y → Follows x y
  | still {s s' : Space} {held : List PhysAddr} {v : VirtAddr} {e : MapError} :
      (unmap v).run s = .ok (.error e) s' → Follows ⟨s, held⟩ ⟨s', held⟩
  | call {s s' : Space} {held : List PhysAddr} (call : Call) : Asks call →
      call.run s = .ok () s' → Follows ⟨s, held⟩ ⟨s', held⟩

variable {c : MemoryConfig} {l : ImageLayout} {b : Board} {w : Window} {x y : Lending}
  {roots : Roots} {s s' : Space} {held : List PhysAddr} {call : Call}

theorem Follows.step (h : Follows x y) : Step x y := by
  cases h with
  | trade htrade => exact .trade htrade
  | still hrun => exact .call (.unmap _) trivial (run_bind_ok hrun)
  | call call hasks hrun => exact .call call hasks.plain hrun

/-- Whatever is asked for is recorded if it is mapped. -/
theorem filed_of_call (hs : s.memory.Sound [roots.high, roots.low] held)
    (hmode : s.mode = .resolved) (h : s.Filed roots) (hasks : Asks call)
    (hrun : call.run s = .ok () s') : s'.Filed roots := by
  cases Call.does_of_run hasks.plain hmode hrun with
  | looks _ hlooked => exact h.looked hlooked
  | mapRange start stop p f hmap => exact h.mapNamed hmode hs hasks.1 hasks.2 hmap
  | mapDevice p size hmap => exact h.mapDevice hmode hs hmap
  | unmap v _ => exact absurd hasks id

theorem Orderly.filed (hx : x.Orderly roots) (h : x.space.Filed roots) (hstep : Follows x y) :
    y.space.Filed roots := by
  cases hstep with
  | trade htrade =>
    have hledger : y.space.ledger = x.space.ledger := by
      cases htrade with
      | granted hrun => exact (sameLedger_onMemory _).of_ok hrun
      | unmet hrun => exact (sameLedger_onMemory _).of_ok hrun
      | returned _ hrun => exact (sameLedger_onMemory _).of_ok hrun
      | refused hrun => exact (sameLedger_onMemory _).of_ok hrun
    exact h.same htrade.served hledger (hx.trades htrade).2.lookup
  | still hrun => exact h.unmap hx.mode hx.sound hrun
  | call call hasks hrun => exact filed_of_call hx.sound hx.mode h hasks hrun

theorem below_sample : SampleBoard.layout.Below sampleConfig :=
  ⟨by decide, by decide, by decide, by decide, by decide, by decide, by decide⟩

end Lending

end HighHalf
