import HighHalf.Proofs.Boot.Resolved

/-!
# Every moment of the switch

An exception or an access may come between any two events of the switch, so what is needed to
take it has to hold after every beginning of the events: the registers are programmed, both
aliases of every region stand for the region as long as the low half is walked, and the vectors
are where execution is. The events fall into three stretches, before the vectors move, between
that and the end of low walks, and after it. In each of them the registers stay as they are.

## Main definitions

* `Transition.Safe`: what holds at a moment of the switch
* `Transition.Guarded`: what holds throughout a switch
-/

namespace HighHalf

open Event Board

/-- A beginning of a list is a beginning of its first part, or goes past it. -/
theorem prefix_append_cons {α : Type} {pre a b : List α} {e : α} (h : pre <+: a ++ e :: b) :
    pre <+: a ∨ ∃ q, pre = a ++ e :: q ∧ q <+: b := by
  rcases List.prefix_or_prefix_of_prefix h (List.prefix_append a (e :: b)) with hshort | ⟨q, rfl⟩
  · exact Or.inl hshort
  · rw [List.prefix_append_right_inj, List.prefix_cons_iff] at h
    rcases h with rfl | ⟨q', rfl, hq'⟩
    · rw [List.append_nil]
      exact Or.inl (List.prefix_refl a)
    · exact Or.inr ⟨q', rfl, hq'⟩

namespace Transition

open Memory

variable {c : MemoryConfig} {l : ImageLayout} {roots : Roots} {m : Memory} {s : Space} {b : Board}
  {w : Window} {x : Crossing} {f : PerRegister Word} {r : Ram} {pre : List Event}

/-- What holds at a moment after address resolution has been turned on, where the registers hold
`f`, RAM is `r`, and `m` was memory when it was turned on. -/
structure Safe (c : MemoryConfig) (l : ImageLayout) (roots : Roots) (m : Memory)
    (f : PerRegister Word) (r : Ram) : Prop where
  attributes : f.get .mair = Control.attributes
  low : f.get .ttbr0 = roots.low.val
  high : f.get .ttbr1 = roots.high.val
  walks : f.get .tcr = Control.walkControl .bits48 .dual ∨
    f.get .tcr = Control.walkControl .bits48 .highOnly
  highWalked : f.get .tcr &&& Control.noHighWalks = 0
  resolving : f.get .sctlr &&& Control.resolving = Control.resolving
  tables : ∀ root ∈ [roots.low, roots.high], ∀ path t, m.Reaches root path t → ∀ i < 512,
    Tables.entry r m.frames.window t i = m.entry t i
  shown : f.get .tcr &&& Control.noLowWalks = 0 →
    ∃ regions, Region.all c l = .ok regions ∧ ∀ region ∈ regions, ∃ range,
      region.range.widened = .ok range ∧ ∀ p, range.contains p = true →
        Tables.resolve r m.frames.window ⟨f.get .ttbr0⟩ p.identity = some p ∧
          Tables.resolve r m.frames.window ⟨f.get .ttbr1⟩ (p.highAlias highBase) = some p
  vectors : f.get .tcr &&& Control.noLowWalks ≠ 0 → f.get .vbar = l.vectors.val ||| highBase

/-- A switch that was safe at every moment: `before` are the events up to the one that turns
address resolution on by writing `v`, `after` those that follow it. -/
structure Guarded (c : MemoryConfig) (l : ImageLayout) (b : Board) (w : Window) (roots : Roots)
    (m : Memory) (before : List Event) (v : Word) (after : List Event) : Prop where
  window : m.frames.window = w
  ram : m.board.ram = replay b.ram before
  on : v &&& Control.resolving = Control.resolving
  off : ∀ u, .write .sctlr u ∉ before
  dropped : ∃ xs q, before = xs ++ Control.dropping ++ q ∧ .write .ttbr0 roots.low.val ∈ xs ∧
    .write .ttbr1 roots.high.val ∈ xs ∧ ∀ e ∈ q, Quiet e
  physical : (registers b.cpu.registers before).get .vbar = l.vectors.val
  untouched : ∀ s, .store s ∈ after → ∃ p u,
    s = .word ((landing c w b.cpu.behaviour).reach p) u ∧
      ∀ root ∈ [roots.low, roots.high], ∀ path t, m.Reaches root path t → p.num + 8 ≤ t.num
  safe : ∀ pre, pre <+: after →
    Safe c l roots m (registers b.cpu.registers (before ++ .write .sctlr v :: pre))
      (replay b.ram (before ++ .write .sctlr v :: pre))
  unmoved : ∀ pre, pre <+: after → (∀ d, .relocate d ∉ pre.dropLast) →
    (registers b.cpu.registers (before ++ .write .sctlr v :: pre)).get .vbar = l.vectors.val

/-! ## The three stretches -/

/-- No stretch writes a register. -/
theorem Crossed.unwritten (hc : Crossed c l b w roots m s x) (g : Register) (v : Word) :
    .write g v ∉ x.enabled ++ .relocate highBase :: x.arrived ∧
      .write g v ∉ x.rehomed ++ rewritten c l m ++ x.followed ∧ .write g v ∉ x.settled := by
  have hquiet := hc.quiet
  have hrewritten : .write g v ∉ rewritten c l m := Relocations.write_not_mem_rewrites
  have hnot : ∀ {q : List Event}, (∀ e ∈ q, e.Quiet) → .write g v ∉ q :=
    fun h => not_mem_of_quiet h id
  simp only [List.forall_mem_append] at hquiet
  obtain ⟨⟨⟨⟨h₁, h₂⟩, h₃⟩, h₄⟩, h₅⟩ := hquiet
  simp [hnot h₁, hnot h₂, hnot h₃, hnot h₄, hnot h₅, hrewritten]

/-- The registers as each stretch leaves them alone; the later two begin after execution has been
moved. -/
theorem Crossed.stretches (hc : Crossed c l b w roots m s x) (hpre : pre <+: x.onward c l m)
    (f : PerRegister Word) :
    registers f pre = f ∨
      (∃ d, .relocate d ∈ pre.dropLast) ∧
        (registers f pre = f.set .vbar (l.vectors.val ||| highBase) ∨
          registers f pre = (f.set .vbar (l.vectors.val ||| highBase)).set .tcr x.walks) := by
  have honward : x.onward c l m = x.enabled ++ .relocate highBase :: x.arrived ++
      .write .vbar (l.vectors.val ||| highBase) ::
        (x.rehomed ++ rewritten c l m ++ x.followed ++ .write .tcr x.walks :: x.settled) := by
    simp [Crossing.onward]
  rw [honward] at hpre
  rcases prefix_append_cons hpre with hfirst | ⟨q, rfl, hq⟩
  · refine Or.inl (registers_of_unwritten fun g v hmem => ?_)
    exact (hc.unwritten g v).1 (hfirst.subset hmem)
  · right
    constructor
    · refine ⟨highBase, ?_⟩
      rw [List.dropLast_append_of_ne_nil (by simp)]
      simp
    · rw [registers_append, registers_of_unwritten fun g v => (hc.unwritten g v).1, registers_write]
      rcases prefix_append_cons hq with hsecond | ⟨q', rfl, hthird⟩
      · refine Or.inl (registers_of_unwritten fun g v hmem => ?_)
        exact (hc.unwritten g v).2.1 (hsecond.subset hmem)
      · right
        rw [registers_append, registers_of_unwritten fun g v => (hc.unwritten g v).2.1,
          registers_write]
        refine registers_of_unwritten fun g v hmem => ?_
        exact (hc.unwritten g v).2.2 (hthird.subset hmem)

/-! ## Each moment -/

/-- The registers are what the policy says, and what is walked can be walked. -/
theorem Passed.safe (h : Passed c l b w roots m) (hsame : Ram.SameOutside m.board.ram r l.data)
    (hmair : f.get .mair = Control.attributes) (hlow : f.get .ttbr0 = roots.low.val)
    (hhigh : f.get .ttbr1 = roots.high.val)
    (hon : f.get .sctlr &&& Control.resolving = Control.resolving)
    (hwalks : f.get .tcr = Control.walkControl .bits48 .dual ∨
      f.get .tcr = Control.walkControl .bits48 .highOnly ∧
        f.get .vbar = l.vectors.val ||| highBase) : Safe c l roots m f r := by
  have hshows := hsame.bank.shows h.sound.consistent.shows
  constructor
  case attributes => exact hmair
  case low => exact hlow
  case high => exact hhigh
  case resolving => exact hon
  case walks =>
    rcases hwalks with htcr | ⟨htcr, -⟩
    · exact Or.inl htcr
    · exact Or.inr htcr
  case highWalked =>
    rcases hwalks with htcr | ⟨htcr, -⟩
    · rw [htcr]
      decide
    · rw [htcr]
      decide
  case tables =>
    intro root hroot path t ht i hi
    exact h.entry_eq hsame hshows (by simpa [or_comm] using hroot) ht hi
  case shown =>
    intro _
    obtain ⟨regions, hregions, hverified⟩ := h.checks.verified
    refine ⟨regions, hregions, fun region hmem => ?_⟩
    obtain ⟨range, hrange, hbytes⟩ := hverified.resolves region hmem
    refine ⟨range, hrange, fun p hp => ?_⟩
    obtain ⟨hidentity, halias⟩ := hbytes p hp
    rw [hlow, hhigh]
    constructor
    · rw [Tables.resolve, h.lookup_eq hsame hshows (by simp)]
      exact hidentity
    · rw [Tables.resolve, h.lookup_eq hsame hshows (by simp)]
      exact halias
  case vectors =>
    intro hoff
    rcases hwalks with htcr | ⟨-, hvbar⟩
    · rw [htcr] at hoff
      exact absurd (by decide) hoff
    · exact hvbar

/-- The memory at the checks is the memory at the moment address resolution is turned on. -/
theorem Arms.replay {es : List Event} (h : Arms l roots es) (r : Ram) : Event.replay r es = r :=
  replay_of_unstored fun s hs => h.still _ hs s rfl

/-- From the checks on, every moment of a switch is safe. -/
theorem Passed.guarded (h : Passed c l b w roots m) (hc : Crossed c l b w roots m s x)
    (hfaithful : b.cpu.behaviour.Faithful) {es : List Event} (hbuilt : Happens b m.board es)
    (hbuilds : ∀ e ∈ es, Builds e) :
    Guarded c l b w roots m (es ++ x.arming) x.control (x.onward c l m) := by
  have hram : m.board.ram = replay b.ram (es ++ x.arming) := by
    rw [replay_append, hc.arms.replay, hbuilt.ram]
  have hspares := h.spares hc
  have hmirrored := h.mirrored
  obtain ⟨f, hf⟩ : ∃ f, f = registers b.cpu.registers es := ⟨_, rfl⟩
  have hpolicy : registers b.cpu.registers (es ++ x.arming) = armed l roots f := by
    rw [registers_append, hc.arms.registers, hf]
  have hregisters : ∀ pre,
      registers b.cpu.registers (es ++ x.arming ++ .write .sctlr x.control :: pre) =
      registers ((armed l roots f).set .sctlr x.control) pre := by
    intro pre
    rw [registers_append, registers_write, hpolicy]
  constructor
  case window => exact h.window
  case ram => exact hram
  case on => exact hc.resolving
  case off =>
    intro u hmem
    rcases List.mem_append.1 hmem with hmem | hmem
    · exact hbuilds _ hmem
    · exact hc.arms.off u hmem
  case dropped =>
    obtain ⟨xs, q, harming, hlow, hhigh, hquiet⟩ := hc.arms.dropped
    refine ⟨es ++ xs, q, ?_, List.mem_append_right es hlow, List.mem_append_right es hhigh, hquiet⟩
    rw [harming, List.append_assoc, List.append_assoc, List.append_assoc]
  case physical =>
    rw [hpolicy]
    rfl
  case untouched =>
    intro s hs
    obtain ⟨p, ⟨u, hword⟩, -, hhigh⟩ := hspares _ hs s rfl
    refine ⟨p, u, hword, fun root hroot path t ht => ?_⟩
    have howned := h.sound.owned root (by simpa [or_comm] using hroot) path t ht
    have habove := h.above t howned
    omega
  case safe =>
    intro pre hpre
    have hsame : Ram.SameOutside m.board.ram
        (replay b.ram (es ++ x.arming ++ .write .sctlr x.control :: pre)) l.data := by
      rw [replay_append, ← hram]
      exact sameOutside_replay hmirrored h.data (List.forall_mem_cons.2
        ⟨nofun, fun e he => hspares e (hpre.subset he)⟩)
    rw [hregisters]
    -- The three stretches: vectors physical, vectors high, low half off.
    rcases hc.stretches hpre ((armed l roots f).set .sctlr x.control) with hf | ⟨-, hf | hf⟩
    · rw [hf]
      exact h.safe hsame rfl rfl rfl hc.resolving (Or.inl rfl)
    · rw [hf]
      exact h.safe hsame rfl rfl rfl hc.resolving (Or.inl rfl)
    · rw [hf, hc.walks hfaithful, withWalks_walkControl]
      exact h.safe hsame rfl rfl rfl hc.resolving (Or.inr ⟨rfl, rfl⟩)
  case unmoved =>
    intro pre hpre hnot
    rw [hregisters]
    rcases hc.stretches hpre ((armed l roots f).set .sctlr x.control) with hf | ⟨⟨d, hd⟩, -⟩
    · rw [hf]
      rfl
    · exact absurd hd (hnot d)

end Transition

namespace Space

open Transition

variable {c : MemoryConfig} {l : ImageLayout} {s : Space} {b : Board} {w : Window}

/-- A boot that ends in the high half was safe at every moment after address resolution had been
turned on, if reads of registers give what was stored. -/
theorem boot_guarded (h : Hosted c l b w) (htop : c.memory.stop.num ≤ 2 ^ 48)
    (hfaithful : b.cpu.behaviour.Faithful) (hrun : boot (fresh c l b w) = .ok .resolved s) :
    ∃ roots m before v after, s.roots = some roots ∧
      s.memory.board.trace.toList = b.trace.toList ++ (before ++ .write .sctlr v :: after) ∧
      Guarded c l b w roots m before v after := by
  obtain ⟨roots, m, x, hpassed, hcrossed⟩ := crossed_of_boot h htop hrun
  obtain ⟨es, hbuilt, hbuilds⟩ := hpassed.built
  refine ⟨roots, m, es ++ x.arming, x.control, x.onward c l m, hcrossed.kept, ?_,
    hpassed.guarded hcrossed hfaithful hbuilt hbuilds⟩
  rw [hcrossed.happens.trace, hbuilt.trace, List.append_assoc, List.append_assoc]

theorem boot_guarded_sample :
    ∃ s roots m before v after,
      boot (fresh sampleConfig SampleBoard.layout sampleBoard .identity) = .ok .resolved s ∧
        s.roots = some roots ∧ s.memory.board.trace.toList = before ++ .write .sctlr v :: after ∧
        Guarded sampleConfig SampleBoard.layout sampleBoard .identity roots m before v after := by
  obtain ⟨s, hrun⟩ := boot_resolves_sample
  obtain ⟨roots, m, before, v, after, hroots, htrace, hguarded⟩ :=
    boot_guarded hosted_sample (by decide) feasible_sample.faithful hrun
  exact ⟨s, roots, m, before, v, after, hrun, hroots, htrace, hguarded⟩

end Space

end HighHalf
