import HighHalf.Proofs.Frames.Setup
import HighHalf.Proofs.Tables.Tree

/-!
# Making tables and writing leaves

Every request of the mapper, whatever way it ends, leaves the trees sound and all their tables in
place. Making tables changes no leaf; writing the leaf of a page changes that leaf alone.
-/

namespace HighHalf

/-- The board after a descriptor was stored at `a` and made visible to the walker. -/
def Board.installed (b : Board) (a : Word) (e : Entry) : Board :=
  { b with
    ram := b.ram.setWord a e.raw
    trace := (((b.trace.push (.store (.word a e.raw))).push (.clean a)).push (.dsb .inner)).push
      .isb }

@[simp] theorem Board.ram_installed (b : Board) (a : Word) (e : Entry) :
    (b.installed a e).ram = b.ram.setWord a e.raw := rfl

namespace Tables

open Memory

variable {m m' m'' : Memory} {root t u p q : PhysAddr} {path : List Nat}
  {roots held : List PhysAddr} {v : VirtAddr} {i j k n : Nat} {e : Entry} {f : Flags}

/-- The later trees are sound and still have all tables of the earlier ones. -/
structure Grows (m m' : Memory) (roots held : List PhysAddr) : Prop where
  sound : Sound m' roots held
  reaches : ∀ root ∈ roots, ∀ path t, Reaches m root path t → Reaches m' root path t
  plan : Frames.SamePlan m.frames m'.frames
  bank : Ram.SameBank m.board.ram m'.board.ram
  rest : SameRest m m'

theorem Grows.refl (h : Sound m roots held) : Grows m m roots held :=
  ⟨h, fun _ _ _ _ hr => hr, Frames.SamePlan.refl _, Ram.SameBank.refl _, fun _ _ _ _ => rfl⟩

theorem Grows.within (g : Grows m m' roots held) : Within m m' := ⟨g.plan, g.bank, g.rest⟩

theorem Grows.trans (g : Grows m m' roots held) (g' : Grows m' m'' roots held) :
    Grows m m'' roots held where
  sound := g'.sound
  reaches := fun root hroot path t hr =>
    g'.reaches root hroot path t (g.reaches root hroot path t hr)
  plan := g.plan.trans g'.plan
  bank := g.bank.trans g'.bank
  rest := (g.within.trans g'.within).rest

/-- Every root has the leaves it had. -/
def SameLeaves (m m' : Memory) (roots : List PhysAddr) : Prop :=
  ∀ root ∈ roots, ∀ v, m'.lookup root v = m.lookup root v

theorem SameLeaves.trans (s : SameLeaves m m' roots) (s' : SameLeaves m' m'' roots) :
    SameLeaves m m'' roots :=
  fun root hroot v => (s' root hroot v).trans (s root hroot v)

/-- What the frame store does for the mapper. -/
theorem grows_spares (h : Sound m roots held) (s : Spares m m') :
    Grows m m' roots held ∧ SameLeaves m m' roots := by
  obtain ⟨hs, he⟩ := h.spares s
  exact ⟨⟨hs, he.reaches, s.plan, s.bank, s.rest⟩, he.lookup⟩

/-! ## The roots -/

/-- A store that has just been set up has no tree and no holder. -/
theorem sound_of_setUp {image : PhysRange} (s : SetUp m m' image)
    (hnarrow : m'.frames.region.start.num + 4096 * m'.frames.total ≤ 2 ^ 48) :
    Sound m' [] [] where
  consistent := s.consistent
  narrow := hnarrow
  owned := nofun
  inner := nofun
  outer := nofun
  unique := nofun
  not_held := nofun
  held_owned := nofun

/-- A frame for a table that is granted is the root of a new tree without leaves. -/
theorem newRoot_spec (h : Sound m roots held) :
    (∃ m', allocateTable m = .ok none m' ∧ Grows m m' roots held ∧ SameLeaves m m' roots ∧
        m.supply = 0) ∨
      ∃ p m', allocateTable m = .ok (some p) m' ∧ Sound m' (p :: roots) held ∧
        Grows m m' roots held ∧ SameLeaves m m' roots ∧ p ∉ roots ∧
        (∀ v, m'.lookup p v = .empty) ∧ m'.supply + 1 = m.supply := by
  rcases allocateTable_spec h.consistent with
    ⟨m', hrun, hkeeps, hsupply⟩ | ⟨p, m', hrun, hspares, hgrants⟩
  · obtain ⟨hgrows, hsame⟩ := grows_spares h (hkeeps.spares h.consistent)
    exact Or.inl ⟨m', hrun, hgrows, hsame, hsupply⟩
  · obtain ⟨hgrows, hsame⟩ := grows_spares h hspares
    have hfresh := h.granted hspares hgrants
    refine Or.inr ⟨p, m', hrun, hgrows.sound.addRoot hfresh, hgrows, hsame, ?_, ?_, hgrants.supply⟩
    · exact fun hp => hfresh.not_reached p hp [] Reaches.root
    · intro v
      refine lookup_of_not_reaches fun t ht => ?_
      have hpath := (ht.of_empty hfresh.empty).1
      exact absurd (congrArg List.length hpath) (by rw [VirtAddr.length_trail]; decide)

/-- A store that has just been set up and has a frame left gets its first tree. -/
theorem firstRoot_spec {image : PhysRange} (s : SetUp m m' image)
    (hnarrow : m'.frames.region.start.num + 4096 * m'.frames.total ≤ 2 ^ 48)
    (hsupply : 0 < m'.supply) :
    ∃ root m₁, allocateTable m' = .ok (some root) m₁ ∧ Sound m₁ [root] [] ∧
      (∀ v, m₁.lookup root v = .empty) ∧ m₁.supply + 1 = m'.supply := by
  rcases newRoot_spec (sound_of_setUp s hnarrow) with
    ⟨-, -, -, -, hzero⟩ | ⟨root, m₁, halloc, hsound, -, -, -, hempty, hsupply₁⟩
  · omega
  · exact ⟨root, m₁, halloc, hsound, hempty, hsupply₁⟩

/-! ## Single steps -/

theorem run_install (a : Word) (e : Entry) (b : Board) :
    install a e b = .ok () (b.installed a e) := rfl

theorem run_link {a : Word} {b : Board} (hold : Entry.isLeaf ⟨b.ram.word a⟩ = false)
    (htable : Entry.table p = .ok e) : link a i p b = .ok () (b.installed a e) := by
  rw [link, run_bind_ok (show Board.load a b = .ok (b.ram.word a) b from rfl)]
  rw [hold, htable, if_neg Bool.false_ne_true]
  exact (run_bind_ok (run_check e b)).trans (run_install a e b)

theorem run_link_leaf {a : Word} {b : Board} (hold : Entry.isLeaf ⟨b.ram.word a⟩ = true) :
    link a i p b = .error (.tableOverLeaf i) b := by
  rw [link, run_bind_ok (show Board.load a b = .ok (b.ram.word a) b from rfl), hold, if_pos rfl]
  rfl

/-- A line of the log is nothing to the trees. -/
theorem note_spec (h : Sound m roots held) (l : Level) (c : Component) (text : String) :
    ∃ m', (liftM (Board.note l c text) : MapM Unit).run m = .ok (.ok ()) m' ∧
      Grows m m' roots held ∧ SameLeaves m m' roots ∧ m'.supply = m.supply := by
  have hkeeps := keeps_noted m l c text
  obtain ⟨hgrows, hsame⟩ := grows_spares h (hkeeps.spares h.consistent)
  exact ⟨m.noted l c text, rfl, hgrows, hsame, hkeeps.supply⟩

/-- The next table is made and linked, or there is no frame for it. No other table comes or
goes. -/
theorem makeTable_reaches (h : Sound m roots held) (hroot : root ∈ roots)
    (hr : Reaches m root path t) (hlen : path.length < 3) (hi : i < 512)
    (hempty : m.entry t i = .empty) :
    (∃ m', allocateTable m = .ok none m' ∧ Grows m m' roots held ∧ SameLeaves m m' roots ∧
        (∀ path' u, Reaches m' root path' u ↔ Reaches m root path' u) ∧ m.supply = 0) ∨
      ∃ p m₁ m₂, allocateTable m = .ok (some p) m₁ ∧
        (liftM (link (entryPlace m.frames.window t i) i p) : MemoryM Unit) m₁ = .ok () m₂ ∧
        Grows m m₂ roots held ∧ SameLeaves m m₂ roots ∧
        (∀ path' u, Reaches m₂ root path' u ↔
          Reaches m root path' u ∨ path' = i :: path ∧ u = p) ∧
        m₂.supply + 1 = m.supply := by
  rcases allocateTable_spec h.consistent with
    ⟨m₁, hrun, hkeeps, hsupply⟩ | ⟨p, m₁, hrun, hspares, hgrants⟩
  · have hspares := hkeeps.spares h.consistent
    obtain ⟨hgrows, hsame⟩ := grows_spares h hspares
    exact Or.inl ⟨m₁, hrun, hgrows, hsame, fun _ _ => h.reaches_spares hspares hroot, hsupply⟩
  · obtain ⟨hgrows, hsame⟩ := grows_spares h hspares
    have hfresh := h.granted hspares hgrants
    have hr₁ := hgrows.reaches root hroot path t hr
    have hempty₁ : m₁.entry t i = .empty := by
      rw [hspares.entry h.consistent (h.owned root hroot path t hr) hi, hempty]
    have hplace : entryPlace m.frames.window t i = entryPlace m₁.frames.window t i := by
      rw [hspares.plan.window]
    -- The entry is empty even after the frame was granted, so no leaf is overwritten.
    have hold : Entry.isLeaf ⟨m₁.board.ram.word (entryPlace m.frames.window t i)⟩ = false := by
      have hword : Entry.mk (m₁.board.ram.word (entryPlace m.frames.window t i)) = .empty := by
        rw [hplace]
        exact hempty₁
      rw [hword, Entry.isLeaf_empty]
    have hlink := run_link (i := i) hold
      (Entry.table_eq hfresh.owned.managed.aligned (hgrows.sound.num_lt_of_fresh hfresh))
    obtain ⟨b, hb⟩ : ∃ b, b = m₁.board.installed (entryPlace m.frames.window t i) (.toTable p) :=
      ⟨_, rfl⟩
    rw [← hb] at hlink
    have hin : Installs m₁ { m₁ with board := b } t i (.toTable p) :=
      ⟨rfl, by rw [← hplace, hb, Board.ram_installed]⟩
    obtain ⟨hs, hext⟩ := hgrows.sound.linked hroot hr₁ hlen hi hempty₁ hfresh hin
    refine Or.inr ⟨p, m₁, { m₁ with board := b }, hrun, run_onBoard hlink, ?_, ?_, ?_, ?_⟩
    · have howned := hgrows.sound.owned root hroot path t hr₁
      have htouch := hin.touches hgrows.sound.consistent.usable howned.managed hi
      exact hgrows.trans ⟨hs, hext.reaches, htouch.plan, htouch.bank,
        (htouch.within howned.managed).rest⟩
    · exact hsame.trans hext.lookup
    · intro path' u
      rw [hgrows.sound.reaches_link hroot hr₁ hlen hi hempty₁ hfresh hin hroot path' u,
        h.reaches_spares hspares hroot]
      simp only [true_and]
    · exact hgrants.supply

theorem makeTable_spec (h : Sound m roots held) (hroot : root ∈ roots)
    (hr : Reaches m root path t) (hlen : path.length < 3) (hi : i < 512)
    (hempty : m.entry t i = .empty) :
    (∃ m', allocateTable m = .ok none m' ∧ Grows m m' roots held ∧ SameLeaves m m' roots ∧
        m.supply = 0) ∨
      ∃ p m₁ m₂, allocateTable m = .ok (some p) m₁ ∧
        (liftM (link (entryPlace m.frames.window t i) i p) : MemoryM Unit) m₁ = .ok () m₂ ∧
        Grows m m₂ roots held ∧ SameLeaves m m₂ roots ∧ Reaches m₂ root (i :: path) p ∧
        m₂.supply + 1 = m.supply := by
  rcases makeTable_reaches h hroot hr hlen hi hempty with
    ⟨m', hrun, hgrows, hsame, -, hsupply⟩ | ⟨p, m₁, m₂, hrun, hlink, hgrows, hsame, hreach, hsupply⟩
  · exact Or.inl ⟨m', hrun, hgrows, hsame, hsupply⟩
  · have hnew := (hreach (i :: path) p).2 (Or.inr ⟨rfl, rfl⟩)
    exact Or.inr ⟨p, m₁, m₂, hrun, hlink, hgrows, hsame, hnew, hsupply⟩

/-! ## One level down -/

section Level

variable {v : VirtAddr} {p : PhysAddr} {m₁ m₂ m₃ : Memory}

theorem run_loadEntry (m : Memory) (t : PhysAddr) (i : Nat) :
    (liftM (Board.load (entryPlace m.frames.window t i)) : MapM Word).run m =
      .ok (.ok (m.entry t i).raw) m := rfl

/-- Where a table is linked, the way down goes on there. -/
theorem run_descendMaking_table (htable : (m.entry t (v.slot k)).isTable = true) :
    (descendMaking v t k (n + 1)).run m =
      (descendMaking v (m.entry t (v.slot k)).addr (k + 1) n).run m := by
  rw [descendMaking, run_bindE_ok (run_getE m), run_bindE_ok (run_loadEntry m t _)]
  simp only [htable, if_true]

/-- What is there and no table is in the way. -/
theorem run_descendMaking_blocked (hvalid : (m.entry t (v.slot k)).isValid = true)
    (htable : (m.entry t (v.slot k)).isTable = false) :
    (descendMaking v t k (n + 1)).run m = .ok (.error .blocked) (m.noted .warn .tables
      s!"L{k} entry {v.slot k} for {v} is not a table: {(m.entry t (v.slot k)).describe}") := by
  rw [descendMaking, run_bindE_ok (run_getE m), run_bindE_ok (run_loadEntry m t _)]
  simp only [htable, hvalid, if_true, Bool.false_eq_true, if_false]
  rfl

/-- Where nothing is linked and no frame is left, the way ends. -/
theorem run_descendMaking_missed (hempty : m.entry t (v.slot k) = .empty)
    (halloc : allocateTable m = .ok none m') :
    (descendMaking v t k (n + 1)).run m = .ok (.error .outOfFrames) m' := by
  rw [descendMaking, run_bindE_ok (run_getE m), run_bindE_ok (run_loadEntry m t _),
    hempty, Entry.raw_empty]
  exact run_bindE_ok (run_lift halloc)

/-- Where nothing is linked, a table is made and linked, and the way goes on there. -/
theorem run_descendMaking_made (hempty : m.entry t (v.slot k) = .empty)
    (halloc : allocateTable m = .ok (some p) m₁)
    (hlink : (liftM (link (entryPlace m.frames.window t (v.slot k)) (v.slot k) p) :
      MemoryM Unit) m₁ = .ok () m₂)
    (hnote : (liftM (Board.note .trace .tables s!"L{k}[{v.slot k}] -> new table {p} for {v}") :
      MapM Unit).run m₂ = .ok (.ok ()) m₃) :
    (descendMaking v t k (n + 1)).run m = (descendMaking v p (k + 1) n).run m₃ := by
  rw [descendMaking, run_bindE_ok (run_getE m), run_bindE_ok (run_loadEntry m t _),
    hempty, Entry.raw_empty]
  exact (run_bindE_ok (run_lift halloc)).trans
    ((run_bindE_ok (run_lift hlink)).trans (run_bindE_ok hnote))

end Level

/-! ## All levels down -/

/-- What making tables down to a leaf table came to: the table, or no frame left for it. -/
def Made (m m' : Memory) (root : PhysAddr) (path : List Nat) (n : Nat) :
    Except MapError PhysAddr → Prop
  | .ok u => Reaches m' root path u ∧ m.supply ≤ m'.supply + n
  | .error e => e = .outOfFrames ∧ m.supply < n ∧ m'.supply = 0

theorem Made.after {m₁ : Memory} {r : Except MapError PhysAddr} {d : Nat}
    (h : Made m₁ m' root path n r) (hsupply : m.supply ≤ m₁.supply + d) :
    Made m m' root path (n + d) r := by
  cases r with
  | ok u => exact ⟨h.1, by have := h.2; omega⟩
  | error e => exact ⟨h.1, by have := h.2; omega, h.2.2⟩

/-- Going down never stops and finds nothing in its way; it makes what is missing. -/
theorem descendMaking_spec (v : VirtAddr) (n : Nat) (h : Sound m roots held) (hroot : root ∈ roots)
    (hr : Reaches m root (v.trail k) t) (hk : k + n ≤ 3) :
    ∃ r m', (descendMaking v t k n).run m = .ok r m' ∧ Grows m m' roots held ∧
      SameLeaves m m' roots ∧ Made m m' root (v.trail (k + n)) n r := by
  induction n generalizing m k t with
  | zero => exact ⟨.ok t, m, rfl, Grows.refl h, fun _ _ _ => rfl, hr, Nat.le_refl _⟩
  | succ n ih =>
    have hlen : (v.trail k).length < 3 := by
      rw [VirtAddr.length_trail]
      omega
    have hlevel : k + 1 + n = k + (n + 1) := by omega
    rcases h.inner root hroot _ t hr hlen _ (v.slot_lt k) with hempty | ⟨htable, -⟩
    · -- The entry is empty, so a table is made and linked.
      obtain ⟨m', halloc, hgrows, hsame, hsupply⟩ | ⟨p, m₁, m₂, halloc, hlink, hgrows, hsame, hnew,
        hsupply⟩ := makeTable_spec h hroot hr hlen (v.slot_lt k) hempty
      · exact ⟨.error .outOfFrames, m', run_descendMaking_missed hempty halloc, hgrows, hsame, rfl,
          by omega, supply_of_none h.consistent halloc⟩
      · obtain ⟨m₃, hnote, hgrows', hsame', hsupply'⟩ := note_spec hgrows.sound .trace .tables
          s!"L{k}[{v.slot k}] -> new table {p} for {v}"
        obtain ⟨r, m', hrun, hgrows'', hsame'', hmade⟩ := ih (k := k + 1) hgrows'.sound
          (hgrows'.reaches root hroot _ p hnew) (by omega)
        refine ⟨r, m', (run_descendMaking_made hempty halloc hlink hnote).trans hrun,
          (hgrows.trans hgrows').trans hgrows'', (hsame.trans hsame').trans hsame'', ?_⟩
        rw [← hlevel]
        exact hmade.after (by omega)
    · -- The entry links a table, so nothing is made.
      have hr' := hr.link hlen (v.slot_lt k) htable
      obtain ⟨r, m', hrun, hgrows, hsame, hmade⟩ := ih (k := k + 1) h hr' (by omega)
      refine ⟨r, m', (run_descendMaking_table htable).trans hrun, hgrows, hsame, ?_⟩
      rw [← hlevel]
      exact hmade.after (Nat.le_succ m.supply)

/-- The leaf table of an address is made unless it is there. -/
theorem makeLeafTable_spec (v : VirtAddr) (h : Sound m roots held) (hroot : root ∈ roots) :
    ∃ r m', (makeLeafTable root v).run m = .ok r m' ∧ Grows m m' roots held ∧
      SameLeaves m m' roots ∧ Made m m' root (v.trail 3) 3 r :=
  descendMaking_spec v 3 h hroot Reaches.root (Nat.le_refl 3)

theorem makeLeafTables_spec (start : VirtAddr) (j n : Nat) (h : Sound m roots held)
    (hroot : root ∈ roots) :
    ∃ r m', (makeLeafTables root start j n).run m = .ok r m' ∧ Grows m m' roots held ∧
      SameLeaves m m' roots ∧
      match r with
      | .ok _ => m.supply ≤ m'.supply + 3 * n
      | .error e => e = .outOfFrames ∧ m.supply < 3 * n ∧ m'.supply = 0 := by
  induction n generalizing m j with
  | zero => exact ⟨.ok (), m, rfl, Grows.refl h, fun _ _ _ => rfl, Nat.le_refl _⟩
  | succ n ih =>
    obtain ⟨r, m₁, hrun, hgrows, hsame, hmade⟩ :=
      makeLeafTable_spec (pageOf start (firstPageIn start j)) h hroot
    cases r with
    | error e =>
      obtain ⟨he, hsupply, hnone⟩ := hmade
      exact ⟨.error e, m₁, run_bindE_fail hrun, hgrows, hsame, he, by omega, hnone⟩
    | ok t =>
      obtain ⟨-, hsupply⟩ := hmade
      obtain ⟨r, m', hrun', hgrows', hsame', hrest⟩ := ih (j + 1) hgrows.sound
      refine ⟨r, m', (run_bindE_ok hrun).trans hrun', hgrows.trans hgrows', hsame.trans hsame', ?_⟩
      cases r with
      | ok _ => exact Nat.le_trans hsupply (by have := hrest; dsimp only at this; omega)
      | error e => exact ⟨hrest.1, by have := hrest.2; omega, hrest.2.2⟩

/-! ## One page -/

/-- Below `root` the leaf at the slots `slots` is `e`, and every other leaf is as it was. -/
def OneLeaf (m m' : Memory) (roots : List PhysAddr) (root : PhysAddr) (slots : List Nat)
    (e : Entry) : Prop :=
  ∀ r ∈ roots, ∀ v : VirtAddr,
    m'.lookup r v = if r = root ∧ v.trail 4 = slots then e else m.lookup r v

/-- The leaf that is stored for a frame: its address as far as a descriptor has room. -/
def leafOf (p : PhysAddr) (f : Flags) : Entry := .toLeaf ⟨p.val &&& Entry.addressMask⟩ f

theorem isTable_leafOf (p : PhysAddr) (hf : Entry.Complete f) : (leafOf p f).isTable = false :=
  Entry.isTable_of_isLeaf (Entry.isLeaf_toLeaf hf)

theorem checkFlags_eq_ok_iff : checkFlags f = .ok () ↔ Entry.Complete f := by
  rw [checkFlags, Entry.Complete]
  cases hleaf : f.isLeaf with
  | false => simp
  | true =>
    by_cases hbits : f.bits &&& Entry.addressMask = 0
    · simp [hbits]
    · simp [hbits]

theorem checkFlags_eq_error (hf : ¬ Entry.Complete f) : checkFlags f = .error .badFlags := by
  rw [← checkFlags_eq_ok_iff, checkFlags] at hf
  rw [checkFlags]
  split
  · rfl
  · rw [if_neg (by assumption)] at hf
    exact absurd rfl hf

/-- A page is refused and nothing is done, or its leaf is stored. -/
theorem run_mapPage (t : PhysAddr) (v : VirtAddr) (p : PhysAddr) (f : Flags) :
    (∃ e, (∀ w b, (mapPage w t v p f).run b = .ok (.error e) b) ∧
        ¬ (v.aligned = true ∧ p.aligned = true ∧ t.aligned = true ∧ Entry.Complete f)) ∨
      Entry.Complete f ∧ ∀ w b, (mapPage w t v p f).run b =
        .ok (.ok ()) (b.installed (entryPlace w t (v.slot 3)) (leafOf p f)) := by
  by_cases halign : v.aligned = true ∧ p.aligned = true ∧ t.aligned = true
  · obtain ⟨hv, hp, ht⟩ := halign
    by_cases hf : Entry.Complete f
    · refine Or.inr ⟨hf, fun w b => ?_⟩
      have hleaf : Entry.leaf p f = .ok (leafOf p f) := Entry.leaf_eq ((p.aligned_iff).1 hp) hf
      have hcheck := checkFlags_eq_ok_iff.2 hf
      rw [mapPage, hv, hp, ht, hcheck, hleaf]
      simp only [Bool.not_true, Bool.or_self, Bool.false_eq_true, if_false]
      exact (run_bindE_ok (run_checkE () b)).trans ((run_bindE_ok (run_lift
        (run_check (leafOf p f) b))).trans (run_lift (run_install ..)))
    · refine Or.inl ⟨.badFlags, fun w b => ?_, fun h => hf h.2.2.2⟩
      rw [mapPage, hv, hp, ht, checkFlags_eq_error hf]
      rfl
  · refine Or.inl ⟨.misaligned, fun w b => ?_, fun h => halign ⟨h.1, h.2.1, h.2.2.1⟩⟩
    have hguard : (!v.aligned || !p.aligned || !t.aligned) = true := by
      revert halign
      cases v.aligned <;> cases p.aligned <;> cases t.aligned <;> simp
    rw [mapPage, if_pos hguard]
    rfl

/-- What a leaf that is stored through a leaf table of a tree does. -/
theorem oneLeaf_of_installs (h : Sound m roots held) (hroot : root ∈ roots)
    (hr : Reaches m root path t) (hlen : path.length = 3) (hi : i < 512)
    (he : e = .empty ∨ e.isLeaf = true) (hin : Installs m m' t i e) :
    Grows m m' roots held ∧ OneLeaf m m' roots root (i :: path) e ∧ m'.supply = m.supply := by
  obtain ⟨hs, hreach, hlookup⟩ := h.leaf hroot hr hlen hi he hin
  have howned := h.owned root hroot path t hr
  have htouch := hin.touches h.consistent.usable howned.managed hi
  exact ⟨⟨hs, fun r hr' path' u => (hreach r hr' path' u).2, htouch.plan, htouch.bank,
    (htouch.within howned.managed).rest⟩, hlookup, htouch.supply⟩

/-- Writing the leaf of a page through a leaf table of a tree. -/
theorem mapPage_spec (v : VirtAddr) (p : PhysAddr) (f : Flags) (h : Sound m roots held)
    (hroot : root ∈ roots) (hr : Reaches m root path t) (hlen : path.length = 3) :
    (∃ e, (Memory.request (mapPage m.frames.window t v p f)).run m = .ok (.error e) m ∧
        ¬ (v.aligned = true ∧ p.aligned = true ∧ Entry.Complete f)) ∨
      Entry.Complete f ∧ ∃ m',
        (Memory.request (mapPage m.frames.window t v p f)).run m = .ok (.ok ()) m' ∧
        Grows m m' roots held ∧ OneLeaf m m' roots root (v.slot 3 :: path) (leafOf p f) ∧
        m'.supply = m.supply := by
  have ht := h.owned root hroot path t hr
  have halign : t.aligned = true := ht.aligned
  rcases run_mapPage t v p f with ⟨e, hrun, hno⟩ | ⟨hf, hrun⟩
  · exact Or.inl ⟨e, run_request (hrun ..), fun hyes => hno ⟨hyes.1, hyes.2.1, halign, hyes.2.2⟩⟩
  · obtain ⟨b, hb⟩ : ∃ b, b = m.board.installed (entryPlace m.frames.window t (v.slot 3))
      (leafOf p f) := ⟨_, rfl⟩
    have hin : Installs m { m with board := b } t (v.slot 3) (leafOf p f) :=
      ⟨rfl, by rw [hb, Board.ram_installed]⟩
    exact Or.inr ⟨hf, _, run_request (hb ▸ hrun ..),
      oneLeaf_of_installs h hroot hr hlen (v.slot_lt 3) (Or.inr (Entry.isLeaf_toLeaf hf)) hin⟩

/-- Unmapping goes down to the leaf table and empties the entry there if it is valid. -/
theorem run_unmapPage (w : Window) (root : PhysAddr) (v : VirtAddr) (b : Board) :
    (unmapPage w root v).run b = match leafTable? b.ram w root v with
      | none => .ok (.error .unmapped) b
      | some t =>
        if (entry b.ram w t (v.slot 3)).isValid then
          .ok (.ok (entry b.ram w t (v.slot 3)))
            (b.installed (entryPlace w t (v.slot 3)) .empty)
        else .ok (.error .unmapped) b := by
  rw [unmapPage, run_bindE_ok (run_getE b)]
  cases leafTable? b.ram w root v with
  | none => rfl
  | some t =>
    have hload : (liftM (Board.load (entryPlace w t (v.slot 3))) : ExceptT MapError BoardM Word).run
        b = .ok (.ok (entry b.ram w t (v.slot 3)).raw) b := rfl
    dsimp only
    rw [run_bindE_ok hload]
    cases hvalid : (entry b.ram w t (v.slot 3)).isValid with
    | false =>
      rw [if_pos (by simp)]
      rfl
    | true =>
      rw [if_neg (by simp), if_pos rfl]
      exact run_bindE_ok (run_lift (run_install ..))

/-- Unmapping finds no leaf for the page and does nothing, or empties the leaf it finds. -/
theorem unmapPage_cases (m : Memory) (root : PhysAddr) (v : VirtAddr) :
    ((Memory.request (unmapPage m.frames.window root v)).run m = .ok (.error .unmapped) m ∧
        m.lookup root v = .empty) ∨
      ∃ t b, Reaches m root (v.trail 3) t ∧ (m.lookup root v).isValid = true ∧
        (Memory.request (unmapPage m.frames.window root v)).run m
          = .ok (.ok (m.lookup root v)) { m with board := b } ∧
        Installs m { m with board := b } t (v.slot 3) .empty := by
  have hrun := run_unmapPage m.frames.window root v m.board
  cases hwalk : leafTable? m.board.ram m.frames.window root v with
  | none =>
    rw [hwalk] at hrun
    exact Or.inl ⟨run_request hrun, by rw [Memory.lookup, Tables.lookup, hwalk]⟩
  | some t =>
    have hr := leafTable?_eq_some_iff.1 hwalk
    have hlookup := lookup_of_reaches hr
    have hentry : entry m.board.ram m.frames.window t (v.slot 3) = m.entry t (v.slot 3) := rfl
    rw [hwalk] at hrun
    dsimp only at hrun
    rw [hentry] at hrun
    cases hvalid : (m.entry t (v.slot 3)).isValid with
    | false =>
      rw [hvalid, if_neg Bool.false_ne_true] at hlookup hrun
      exact Or.inl ⟨run_request hrun, hlookup⟩
    | true =>
      rw [hvalid, if_pos rfl] at hlookup hrun
      obtain ⟨b, hb⟩ : ∃ b, b = m.board.installed (entryPlace m.frames.window t (v.slot 3))
        .empty := ⟨_, rfl⟩
      rw [← hb, ← hlookup] at hrun
      refine Or.inr ⟨t, b, hr, by rw [hlookup]; exact hvalid, run_request hrun, rfl, ?_⟩
      rw [hb, Board.ram_installed]

/-- Emptying the leaf of a page of a tree, or finding none. -/
theorem unmapPage_spec (v : VirtAddr) (h : Sound m roots held) (hroot : root ∈ roots) :
    ((Memory.request (unmapPage m.frames.window root v)).run m = .ok (.error .unmapped) m ∧
        m.lookup root v = .empty) ∨
      ∃ m', (Memory.request (unmapPage m.frames.window root v)).run m
          = .ok (.ok (m.lookup root v)) m' ∧
        Grows m m' roots held ∧ OneLeaf m m' roots root (v.trail 4) .empty := by
  rcases unmapPage_cases m root v with hnone | ⟨t, b, hr, -, hrun, hin⟩
  · exact Or.inl hnone
  · obtain ⟨hgrows, hone, -⟩ :=
      oneLeaf_of_installs h hroot hr (v.length_trail 3) (v.slot_lt 3) (Or.inl rfl) hin
    exact Or.inr ⟨_, hrun, hgrows, hone⟩

end Tables

end HighHalf
