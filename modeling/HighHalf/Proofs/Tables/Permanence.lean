import HighHalf.Proofs.Tables.Publication

/-!
# Leaf tables are made once

Asking for the leaf table of an address changes no leaf, whatever comes of it. The table that is
made is the one through which the address is looked up, and from then on it stays the table of its
2 MiB and of nothing else: whoever asks for it in any later state gets it without a store, a frame
or an event, and whoever asks for another one gets another frame.

## Main definitions

* `World.Later`: the states that a run reaches from a state
* `World.Settled`: a table is the leaf table of a region
-/

namespace HighHalf

namespace VirtAddr

variable {u v : VirtAddr}

/-- Canonical addresses have the same leaf table if they are in the same 2 MiB. -/
theorem trail_three_eq_iff (hu : u.Canonical) (hv : v.Canonical) :
    u.trail 3 = v.trail 3 ↔ u.num / 2 ^ 21 = v.num / 2 ^ 21 := by
  rw [canonical_iff] at hu hv
  have hu' := u.num_lt
  have hv' := v.num_lt
  simp only [trail, List.cons.injEq, and_true, slot, page_eq]
  constructor
  · rintro ⟨h2, h1, h0⟩
    norm_num at h2 h1 h0
    omega
  · intro h
    norm_num
    omega

theorem slot_three_eq (v : VirtAddr) : v.slot 3 = v.num / 4096 % 512 := by
  rw [slot, page_eq]
  norm_num

end VirtAddr

namespace World

open Memory Tables

variable {s s' s'' : World} {op : Op} {m m' : Memory} {root root' t t' : PhysAddr}
  {path : List Nat} {u v : VirtAddr}

/-! ## Later states -/

/-- The states that are reached from `s` by any operations. -/
inductive Later (s : World) : World → Prop where
  | now : Later s s
  | step {s' : World} {op : Op} : Later s s' → s'.Allows op → Later s (s'.step op)

/-- All roots and all tables of `s` are still there in `s'`. -/
structure Retains (s s' : World) : Prop where
  roots : ∀ root ∈ s.roots, root ∈ s'.roots
  reaches : ∀ root ∈ s.roots, ∀ path t, s.memory.Reaches root path t →
    s'.memory.Reaches root path t

theorem Retains.refl (s : World) : Retains s s := ⟨fun _ hr => hr, fun _ _ _ _ hr => hr⟩

theorem Retains.trans (h : Retains s s') (h' : Retains s' s'') : Retains s s'' where
  roots := fun root hroot => h'.roots root (h.roots root hroot)
  reaches := fun root hroot path t hr =>
    h'.reaches root (h.roots root hroot) path t (h.reaches root hroot path t hr)

/-- The mapper makes no root. -/
theorem roots_step (hop : op.Maps) : (s.step op).roots = s.roots := by
  have hafter : ∀ {α : Type} (r : EStateM.Result Fatal Memory α), (s.after r).roots = s.roots := by
    intro α r
    cases r <;> rfl
  cases op with
  | makeLeafTable root v =>
    rw [step]
    split
    · rfl
    · exact hafter _
  | mapRange root start stop p f => exact hafter _
  | mapPage t v p f => exact hafter _
  | unmapPage root v => exact hafter _
  | _ => exact absurd hop id

/-- No operation takes a table out of its tree. -/
theorem Good.retains (h : s.Good) (ha : s.Allows op) : Retains s (s.step op) := by
  by_cases hop : op.Maps
  · have hroots : (s.step op).roots = s.roots := roots_step hop
    exact ⟨fun root hroot => hroots ▸ hroot, (h.works ha hop).grows.reaches⟩
  · cases op with
    | allocate =>
      rcases allocate_spec h.sound.consistent with ⟨m, hrun, hkeeps, -⟩ | ⟨p, m, hrun, hspares, -⟩
      · rw [World.step, hrun]
        exact ⟨fun _ hr => hr, (h.sound.spares (hkeeps.spares h.sound.consistent)).2.reaches⟩
      · rw [World.step, hrun]
        exact ⟨fun _ hr => hr, (h.sound.spares hspares).2.reaches⟩
    | newRoot =>
      rcases newRoot_spec h.sound with ⟨m, hrun, hgrows, -⟩ | ⟨p, m, hrun, -, hgrows, -⟩
      · rw [World.step, hrun]
        exact ⟨fun _ hr => hr, hgrows.reaches⟩
      · rw [World.step, hrun]
        exact ⟨fun _ hr => List.mem_cons_of_mem p hr, hgrows.reaches⟩
    | park n =>
      obtain ⟨k, m, hrun, hspares, -⟩ := park_spec n h.sound.consistent
      rw [step_park, hrun]
      exact ⟨fun _ hr => hr, (h.sound.spares hspares).2.reaches⟩
    | release p =>
      obtain ⟨m, hrun, hrel⟩ := release_spec h.sound.consistent (h.sound.held_owned p ha)
      rw [World.step, hrun]
      exact ⟨fun _ hr => hr, (h.sound.release ha hrel).2.reaches⟩
    | write p i v =>
      have hman := (h.sound.held_owned p ha.1).managed
      have htouch := touches_write h.sound.consistent.usable hman ha.2 v
      exact ⟨fun _ hr => hr, (h.sound.scribble ha.1 htouch).2.reaches⟩
    | _ => exact absurd trivial hop

theorem Later.good (h : Later s s') (hs : s.Good) : s'.Good := by
  induction h with
  | now => exact hs
  | step _ ha ih => exact ih.step ha

theorem Later.retains (h : Later s s') (hs : s.Good) : Retains s s' := by
  induction h with
  | now => exact Retains.refl s
  | step hlater ha ih => exact ih.trans ((hlater.good hs).retains ha)

/-! ## The table of a region -/

/-- `t` is the leaf table of the 2 MiB around `v` below `root`, and of nothing else. -/
structure Settled (s : World) (root : PhysAddr) (v : VirtAddr) (t : PhysAddr) : Prop where
  /-- The leaf of an address of the region is its entry in `t`. -/
  read : ∀ u : VirtAddr, u.Canonical → u.num / 2 ^ 21 = v.num / 2 ^ 21 →
    s.memory.lookup root u = s.memory.entry t (u.num / 4096 % 512)
  /-- Asking for it again gives `t` and does nothing. -/
  again : ∀ u : VirtAddr, u.Canonical → u.num / 2 ^ 21 = v.num / 2 ^ 21 →
    (makeLeafTable root u).run s.memory = .ok (.ok t) s.memory
  /-- Who is given `t` asked for this region below this root. -/
  only : ∀ root' ∈ s.roots, ∀ u : VirtAddr, u.Canonical → ∀ t' m,
    (makeLeafTable root' u).run s.memory = .ok (.ok t') m →
      (t' = t ↔ root' = root ∧ u.num / 2 ^ 21 = v.num / 2 ^ 21)

theorem Good.settled (h : s.Good) (hroot : root ∈ s.roots) (hv : v.Canonical)
    (ht : s.memory.Reaches root (v.trail 3) t) : s.Settled root v t := by
  have hsame : ∀ {u : VirtAddr}, u.Canonical → u.num / 2 ^ 21 = v.num / 2 ^ 21 →
      s.memory.Reaches root (u.trail 3) t := by
    intro u hu hregion
    rwa [(VirtAddr.trail_three_eq_iff hu hv).2 hregion]
  constructor
  case read =>
    intro u hu hregion
    rw [lookup_of_reaches (hsame hu hregion), ← u.slot_three_eq]
    -- An entry of a leaf table is empty or a leaf, so nothing is hidden.
    rcases h.sound.outer root hroot _ t ht (v.length_trail 3) _ (u.slot_lt 3) with hempty | hleaf
    · rw [hempty, ite_self]
    · rw [if_pos (Entry.isValid_of_isLeaf hleaf)]
  case again => exact fun u hu hregion => run_makeLeafTable_of_reaches (hsame hu hregion)
  case only =>
    intro root' hroot' u hu t' m hrun
    obtain ⟨r, m₁, hrun₁, hgrows, -, hmade⟩ := makeLeafTable_spec u h.sound hroot'
    cases hrun.symm.trans hrun₁
    constructor
    · rintro rfl
      obtain ⟨hroots, htrail⟩ := hgrows.sound.unique root' hroot' root hroot _ _ t' hmade.1
        (hgrows.reaches root hroot _ t' ht)
      exact ⟨hroots, (VirtAddr.trail_three_eq_iff hu hv).1 htrail⟩
    · rintro ⟨rfl, hregion⟩
      exact hmade.1.inj (hgrows.reaches root' hroot _ t (hsame hu hregion))

/-- Asking for a leaf table changes no leaf, and a table that is made is the leaf table of its
region in every later state. -/
theorem Good.leafTable_settled (h : s.Good) (hroot : root ∈ s.roots) (hv : v.Canonical) :
    ∃ r m, (Tables.makeLeafTable root v).run s.memory = .ok r m ∧
      (∀ root' ∈ s.roots, ∀ u, m.lookup root' u = s.memory.lookup root' u) ∧
      (∀ e, r = .error e → e = .outOfFrames) ∧
      ∀ t, r = .ok t → ∀ s', Later (s.step (.makeLeafTable root v)) s' → s'.Settled root v t := by
  obtain ⟨r, m, hrun, hgrows, hsame, hmade⟩ := makeLeafTable_spec v h.sound hroot
  refine ⟨r, m, hrun, hsame, ?_, ?_⟩
  · rintro e rfl
    exact hmade.1
  · rintro t rfl s' hlater
    have hgood : (s.step (.makeLeafTable root v)).Good := h.makeLeafTable hroot v
    have hretains := hlater.retains hgood
    have hstep : s.step (.makeLeafTable root v) =
        { s with memory := m, leafTables := t :: s.leafTables } := by
      rw [World.step, hrun]
    rw [hstep] at hretains
    exact (hlater.good hgood).settled (hretains.roots root hroot) hv
      (hretains.reaches root hroot _ t hmade.1)

/-- In the small store the leaf table of a page is made, the next 2 MiB are mapped, and the page is
asked for again. -/
theorem Good.leafTable_settled_sample :
    ∃ (s : World) (root t : PhysAddr) (s' : World), s.Good ∧ s.roots = [root] ∧
      (∃ m, (Tables.makeLeafTable root ⟨0x1FF000⟩).run s.memory = .ok (.ok t) m) ∧
      s' = (s.step (.makeLeafTable root ⟨0x1FF000⟩)).step
        (.mapRange root ⟨0x200000⟩ ⟨0x201000⟩ ⟨0x40010000⟩ .data) ∧
      s'.Settled root ⟨0x1FF000⟩ t ∧
      (Tables.makeLeafTable root ⟨0x1000⟩).run s'.memory = .ok (.ok t) s'.memory := by
  obtain ⟨m₀, -, hset, -, hsupply₀, htop⟩ := setUp_sample
  obtain ⟨root, m₁, -, hsound, -, hsupply⟩ :=
    firstRoot_spec hset (by rw [htop]; decide) (by omega)
  have hgood : Good ⟨m₁, [root], [], []⟩ := ⟨hsound, nofun⟩
  have hroot : root ∈ [root] := List.mem_singleton.2 rfl
  obtain ⟨r, m₂, hrun, -, -, hsettled⟩ := Good.leafTable_settled hgood hroot
    (v := ⟨0x1FF000⟩) (by rw [VirtAddr.Canonical]; decide)
  obtain ⟨r', m₂', hrun', -, -, hmade⟩ := makeLeafTable_spec ⟨0x1FF000⟩ hsound hroot
  cases hrun.symm.trans hrun'
  cases r with
  | error e =>
    have hshort := hmade.2.1
    omega
  | ok t =>
    have hroots : (World.step ⟨m₁, [root], [], []⟩ (.makeLeafTable root ⟨0x1FF000⟩)).roots =
        [root] := roots_step trivial
    have hallows : (World.step ⟨m₁, [root], [], []⟩ (.makeLeafTable root ⟨0x1FF000⟩)).Allows
        (.mapRange root ⟨0x200000⟩ ⟨0x201000⟩ ⟨0x40010000⟩ .data) := by
      show root ∈ _
      rw [hroots]
      exact hroot
    have hdone := hsettled t rfl _ (Later.now.step hallows)
    exact ⟨_, root, t, _, hgood, rfl, ⟨m₂, hrun⟩, rfl, hdone, hdone.again ⟨0x1000⟩
      (by rw [VirtAddr.Canonical]; decide) (by decide)⟩

end World

end HighHalf
