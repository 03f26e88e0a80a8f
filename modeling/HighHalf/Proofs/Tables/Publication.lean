import HighHalf.Proofs.Frames.Provision
import HighHalf.Proofs.Tables.Passes
import HighHalf.Proofs.Tables.Runs

/-!
# Publication

The walker may look at the tables at any moment, also half way through a request. Every
descriptor is published right after it is stored, a table is linked only when it is all zero, and
whatever the moment, an address has the leaf it had before the request or the one it has in the
end. This holds of every request to the mapper, whatever way it ends.

## Main definitions

* `Tables.Course`: the events of the mapper, taken apart store by store
* `Tables.Works`: what the mapper did between two states
* `World.Published`: what the walker may see of a request
-/

namespace HighHalf

open Event Board

/-! ## Events of the mapper -/

/-- Every byte of the frame at `p` is zero. -/
def Ram.Blank (r : Ram) (p : PhysAddr) : Prop :=
  ∀ n, p.num ≤ n → n < p.num + 4096 → r.cell n = 0

/-- The table at `t` is a root, or is reached from one. -/
def Memory.HasTable (m : Memory) (roots : List PhysAddr) (t : PhysAddr) : Prop :=
  ∃ root ∈ roots, ∃ path : List Nat, m.Reaches root path t

namespace Event

/-- Whether the event is one of the processor, and no store. -/
def onCpu : Event → Bool
  | store _ => false
  | _ => true

/-- Where words were stored, in the order of the stores. -/
def words (es : List Event) : List Word :=
  es.filterMap fun e => match e with
    | store (.word a _) => some a
    | _ => none

theorem replay_word (r : Ram) (a v : Word) (es : List Event) :
    replay r (.store (.word a v) :: es) = replay (r.setWord a v) es := replay_store ..

theorem replay_publication (r : Ram) (a : Word) (es : List Event) :
    replay r (publication a ++ es) = replay r es := rfl

end Event

namespace Tables

/-- Events of the mapper from RAM `r` on, in which `A` holds of every store that provides frames,
`D` of every table an entry of which is stored, and `Q` of RAM at every moment. -/
inductive Course (w : Window) (A : Store → Prop) (D : PhysAddr → Prop) (Q : Ram → Prop) :
    Ram → List Event → Prop
  | done {r : Ram} : Q r → Course w A D Q r []
  | provide {r : Ram} {s : Store} {es : List Event} : Q r → A s →
      Course w A D Q (s.apply r) es → Course w A D Q r (.store s :: es)
  | install {r : Ram} {t : PhysAddr} {i : Nat} {v : Word} {es : List Event} : Q r → D t →
      i < 512 → ((⟨v⟩ : Entry).isTable = true → r.Blank (⟨v⟩ : Entry).addr) →
      Course w A D Q (r.setWord (entryPlace w t i) v) es →
      Course w A D Q r
        (.store (.word (entryPlace w t i) v) :: (publication (entryPlace w t i) ++ es))

section Course

variable {w : Window} {A A' : Store → Prop} {D D' : PhysAddr → Prop} {Q Q' : Ram → Prop} {r : Ram}
  {es es' pre post : List Event} {s : Store}

theorem Course.now (h : Course w A D Q r es) : Q r := by
  cases h with
  | done hQ => exact hQ
  | provide hQ => exact hQ
  | install hQ => exact hQ

theorem Course.mono (h : Course w A D Q r es) (hA : ∀ s, A s → A' s) (hD : ∀ t, D t → D' t)
    (hQ : ∀ r, Q r → Q' r) : Course w A' D' Q' r es := by
  induction h with
  | done hnow => exact .done (hQ _ hnow)
  | provide hnow hs _ ih => exact .provide (hQ _ hnow) (hA _ hs) ih
  | install hnow ht hi hblank _ ih => exact .install (hQ _ hnow) (hD _ ht) hi hblank ih

theorem Course.append (h : Course w A D Q r es) (h' : Course w A D Q (replay r es) es') :
    Course w A D Q r (es ++ es') := by
  induction h with
  | done => exact h'
  | provide hnow hs _ ih => exact .provide hnow hs (ih h')
  | install hnow ht hi hblank _ ih =>
    rw [replay_word, replay_publication] at h'
    rw [List.cons_append, List.append_assoc]
    exact .install hnow ht hi hblank (ih h')

/-- A beginning that ends within a publication sees the RAM of the store before it. -/
theorem Course.moments (h : Course w A D Q r es) (hpre : pre <+: es) : Q (replay r pre) := by
  induction h generalizing pre with
  | done hnow =>
    rw [List.prefix_nil.1 hpre]
    exact hnow
  | provide hnow hs _ ih =>
    rcases List.prefix_cons_iff.1 hpre with rfl | ⟨q, rfl, hq⟩
    · exact hnow
    · exact ih hq
  | @install r t i v es hnow ht hi hblank hrest ih =>
    rcases List.prefix_cons_iff.1 hpre with rfl | ⟨q, rfl, hq⟩
    · exact hnow
    · rcases List.prefix_or_prefix_of_prefix hq (List.prefix_append _ es) with hshort | ⟨q', rfl⟩
      · rw [replay_word, replay_of_unstored fun s hs => ?_]
        · exact hrest.now
        · have hmem := hshort.subset hs
          simp [publication] at hmem
      · rw [replay_word, replay_publication]
        exact ih ((List.prefix_append_right_inj _).1 hq)

/-- Each store provides a frame, or is an entry of a table that is published at once. -/
theorem Course.split (h : Course w A D Q r (pre ++ .store s :: post)) :
    A s ∨ ∃ t i v rest, D t ∧ i < 512 ∧ s = .word (entryPlace w t i) v ∧
      post = publication (entryPlace w t i) ++ rest ∧
      ((⟨v⟩ : Entry).isTable = true → (replay r pre).Blank (⟨v⟩ : Entry).addr) := by
  generalize hes : pre ++ .store s :: post = es at h
  induction h generalizing pre with
  | done => simp at hes
  | provide _ hs _ ih =>
    cases pre with
    | nil =>
      cases hes
      exact Or.inl hs
    | cons e pre =>
      rw [List.cons_append, List.cons.injEq] at hes
      obtain ⟨rfl, hrest⟩ := hes
      exact ih hrest
  | @install r t i v es _ ht hi hblank _ ih =>
    match pre, hes with
    | [], hes =>
      cases hes
      exact Or.inr ⟨t, i, v, es, ht, hi, rfl, rfl, hblank⟩
    | [_], hes => simp [publication] at hes
    | [_, _], hes => simp [publication] at hes
    | [_, _, _], hes => simp [publication] at hes
    | e₁ :: e₂ :: e₃ :: e₄ :: pre, hes =>
      simp only [publication, List.cons_append, List.nil_append, List.cons.injEq] at hes
      obtain ⟨rfl, rfl, rfl, rfl, hrest⟩ := hes
      have hlater := ih hrest
      rwa [← replay_publication _ (entryPlace w t i), ← replay_word] at hlater

/-- The processor does nothing but publish the words, one after the other. -/
theorem Course.exact (h : Course w A D Q r es) (hA : ∀ a v, ¬ A (.word a v)) :
    es.filter onCpu = (words es).flatMap publication := by
  induction h with
  | done => rfl
  | @provide r s es _ hs _ ih =>
    have hwords : words (.store s :: es) = words es := by
      cases s with
      | word a v => exact absurd hs (hA a v)
      | byte a v => rfl
      | clear a n => rfl
    rw [hwords, ← ih]
    rfl
  | @install r t i v es _ _ _ _ _ ih =>
    have hwords : words (.store (.word (entryPlace w t i) v) ::
        (publication (entryPlace w t i) ++ es)) = entryPlace w t i :: words es := rfl
    rw [hwords, List.flatMap_cons, ← ih]
    rfl

end Course

/-! ## What the mapper did between two states -/

open Memory

/-- Through the window `w` every root has the leaves `g`, or those that `g'` has. -/
def Between (w : Window) (roots : List PhysAddr) (g g' : PhysAddr → VirtAddr → Entry) (r : Ram) :
    Prop :=
  ∀ root ∈ roots, ∀ v, lookup r w root v = g root v ∨ lookup r w root v = g' root v

/-- The mapper went from `m` to `m'`, and `Q` held of RAM at every moment: it stored entries of
tables, and frames were provided that became tables. -/
structure Works (m m' : Memory) (roots held : List PhysAddr) (Q : Ram → Prop) : Prop where
  grows : Grows m m' roots held
  course : ∃ es, Happens m.board m'.board es ∧
    Course m.frames.window
      (m.frames.Provides fun p => m.frames.Manages p ∧ ¬ m.Owned p ∧ m'.HasTable roots p)
      (m'.HasTable roots) Q m.board.ram es
  owned : ∀ p, m.Owned p → m'.Owned p

variable {m m' m'' m₁ m₂ : Memory} {root t p : PhysAddr} {path : List Nat}
  {roots held : List PhysAddr} {start stop v : VirtAddr} {i j k n : Nat} {f : Flags}
  {Q Q' : Ram → Prop} {g g' : PhysAddr → VirtAddr → Entry} {w : Window} {r : Ram} {e : Entry}

theorem Grows.hasTable (h : Grows m m' roots held) (ht : m.HasTable roots t) :
    m'.HasTable roots t := by
  obtain ⟨root, hroot, path, hr⟩ := ht
  exact ⟨root, hroot, path, h.reaches root hroot path t hr⟩

theorem Works.refl (h : Sound m roots held) (hQ : Q m.board.ram) : Works m m roots held Q :=
  ⟨Grows.refl h, ⟨[], Happens.refl _, .done hQ⟩, fun _ hp => hp⟩

theorem Works.mono (h : Works m m' roots held Q) (hQ : ∀ r, Q r → Q' r) :
    Works m m' roots held Q' := by
  obtain ⟨es, hes, hcourse⟩ := h.course
  exact ⟨h.grows, ⟨es, hes, hcourse.mono (fun _ hs => hs) (fun _ ht => ht) hQ⟩, h.owned⟩

theorem Works.trans (h : Works m m' roots held Q) (h' : Works m' m'' roots held Q) :
    Works m m'' roots held Q := by
  obtain ⟨es, hes, hcourse⟩ := h.course
  obtain ⟨es', hes', hcourse'⟩ := h'.course
  have hplan := h.grows.plan
  refine ⟨h.grows.trans h'.grows, ⟨es ++ es', hes.trans hes', ?_⟩,
    fun p hp => h'.owned p (h.owned p hp)⟩
  refine Course.append (hcourse.mono (fun s hs => hs.mono ?_) (fun t => h'.grows.hasTable)
    fun r hr => hr) ?_
  · rintro p ⟨hman, hnot, ht⟩
    exact ⟨hman, hnot, h'.grows.hasTable ht⟩
  · rw [← hes.ram, ← hplan.window]
    refine hcourse'.mono (fun s hs => (hplan.provides hs).mono ?_) (fun t ht => ht) fun r hr => hr
    rintro p ⟨hman, hnot, ht⟩
    exact ⟨hplan.manages.1 hman, fun hp => hnot (h.owned p hp), ht⟩

theorem Works.ended (h : Works m m' roots held Q) : Q m'.board.ram := by
  obtain ⟨es, hes, hcourse⟩ := h.course
  rw [hes.ram]
  exact hcourse.moments (List.prefix_refl es)

theorem Works.begun (h : Works m m' roots held Q) : Q m.board.ram := by
  obtain ⟨es, -, hcourse⟩ := h.course
  exact hcourse.now

/-- A line of the log is no event. -/
theorem works_note (h : Sound m roots held) (hQ : Q m.board.ram) {l : Level} {c : Component}
    {text : String} (hrun : (liftM (Board.note l c text) : MapM Unit).run m = .ok (.ok ()) m') :
    Works m m' roots held Q := by
  cases hrun
  have hkeeps := keeps_noted m l c text
  refine ⟨(grows_spares h (hkeeps.spares h.consistent)).1, ⟨[], ?_, .done hQ⟩,
    fun p hp => hkeeps.owned hp⟩
  exact ⟨(List.append_nil _).symm, rfl, rfl, rfl⟩

/-! ## Frames for tables -/

/-- The leaves below a root hang on the tables that it reaches. -/
theorem lookup_of_sameTables (h : Sound m roots held) (hbank : Ram.SameBank m.board.ram r)
    (hroot : root ∈ roots) (hsame : ∀ path t, Reaches m root path t →
      Ram.SameOn m.board.ram r t.num (t.num + 4096)) (v : VirtAddr) :
    lookup r m.frames.window root v = m.lookup root v := by
  have hshows := h.consistent.shows
  obtain ⟨m', hm'⟩ : ∃ m' : Memory, m' = { m with board := { m.board with ram := r } } := ⟨_, rfl⟩
  have hentries : ∀ path t, Reaches m root path t → ∀ i < 512, m'.entry t i = m.entry t i := by
    intro path t ht i hi
    have howned := h.owned root hroot path t ht
    rw [hm']
    exact entry_congr hshows (hbank.shows hshows) hbank (h.consistent.has howned.managed) hi
      (hsame path t ht)
  have hlookup := lookup_congr hentries v
  rwa [hm'] at hlookup

theorem lookup_of_sameOwned (h : Sound m roots held) (hbank : Ram.SameBank m.board.ram r)
    (hsame : ∀ p, m.Owned p → Ram.SameOn m.board.ram r p.num (p.num + 4096))
    (hroot : root ∈ roots) (v : VirtAddr) :
    lookup r m.frames.window root v = m.lookup root v :=
  lookup_of_sameTables h hbank hroot (fun path t ht => hsame t (h.owned root hroot path t ht)) v

/-- Providing frames that nobody owned leaves every leaf as it was, at every moment. -/
theorem course_of_provides {A : Store → Prop} {D : PhysAddr → Prop} {P : PhysAddr → Prop}
    {ss : List Store} (h : Sound m roots held) (hA : ∀ s, m.frames.Provides P s → A s)
    (hP : ∀ p, P p → m.frames.Manages p ∧ ¬ m.Owned p)
    (hQ : ∀ r, (∀ root ∈ roots, ∀ v, lookup r m.frames.window root v = m.lookup root v) → Q r)
    (hss : ∀ s ∈ ss, m.frames.Provides P s) (hbank : Ram.SameBank m.board.ram r)
    (hsame : ∀ p, m.Owned p → Ram.SameOn m.board.ram r p.num (p.num + 4096)) :
    Course m.frames.window A D Q r (ss.map .store) := by
  have hc := h.consistent
  have hnow : ∀ r, Ram.SameBank m.board.ram r →
      (∀ p, m.Owned p → Ram.SameOn m.board.ram r p.num (p.num + 4096)) → Q r :=
    fun r hbank hsame => hQ r fun root hroot v => lookup_of_sameOwned h hbank hsame hroot v
  induction ss generalizing r with
  | nil => exact .done (hnow r hbank hsame)
  | cons s ss ih =>
    rw [List.forall_mem_cons] at hss
    refine .provide (hnow r hbank hsame) (hA s hss.1)
      (ih hss.2 (hbank.trans (s.sameBank_apply r)) fun p hp n hn hn' => ?_)
    have hlow := (hc.has hp.managed).1
    refine (cell_of_provides hc.bitmapInside (fun q hq => hc.has (hP q hq).1) hbank hss.1
      (by omega) (hc.not_inBitmap hp.managed hn) fun q hq hin => ?_).trans (hsame p hp n hn hn')
    -- A frame that is stored to is nobody's, so it is another one.
    have hne : p ≠ q := fun he => (hP q hq).2 (he ▸ hp)
    have hapart := hp.managed.apart (hP q hq).1 hne
    omega

/-- A request for a table that is not granted. -/
theorem works_of_missed (h : Sound m roots held) (hrun : allocateTable m = .ok none m')
    (hQ : ∀ r, (∀ root ∈ roots, ∀ v, lookup r m.frames.window root v = m.lookup root v) → Q r) :
    Works m m' roots held Q := by
  rcases allocateTable_spec h.consistent with ⟨m₁, hnone, hkeeps, -⟩ | ⟨p, m₁, hsome, -⟩
  · cases hrun.symm.trans hnone
    obtain ⟨ss, hss, hall⟩ :=
      (provided_allocateTable (P := fun _ => False) hrun nofun).stores
    refine ⟨(grows_spares h (hkeeps.spares h.consistent)).1, ⟨_, hss, ?_⟩, fun p => hkeeps.owned⟩
    exact course_of_provides h (fun s hs => hs.mono fun p hp => hp.elim) (fun p hp => hp.elim) hQ
      hall (Ram.SameBank.refl _) fun p _ => Ram.SameOn.refl _ _ _
  · cases hrun.symm.trans hsome

/-! ## Single descriptors -/

theorem happens_installed (b : Board) (a : Word) (e : Entry) :
    Happens b (b.installed a e) (.store (.word a e.raw) :: publication a) :=
  ⟨by simp [publication, Board.installed], rfl, rfl, rfl⟩

theorem happens_link {a : Word} {b b' : Board} (hrun : link a i p b = .ok () b') :
    ∃ e, Entry.table p = .ok e ∧ Happens b b' (.store (.word a e.raw) :: publication a) := by
  cases hold : Entry.isLeaf ⟨b.ram.word a⟩ with
  | true =>
    rw [link, run_bind_ok (show Board.load a b = .ok (b.ram.word a) b from rfl), hold] at hrun
    cases hrun
  | false =>
    cases htable : Entry.table p with
    | error e =>
      rw [link, run_bind_ok (show Board.load a b = .ok (b.ram.word a) b from rfl), hold,
        htable] at hrun
      cases hrun
    | ok e =>
      cases (run_link hold htable).symm.trans hrun
      exact ⟨e, rfl, happens_installed b a e⟩

/-- Storing one descriptor into a table that is there in the end. -/
theorem course_of_install {A : Store → Prop} {D : PhysAddr → Prop} (ht : D t) (hi : i < 512)
    (hblank : e.isTable = true → r.Blank e.addr) (hbefore : Q r)
    (hafter : Q (r.setWord (entryPlace w t i) e.raw)) :
    Course w A D Q r
      (.store (.word (entryPlace w t i) e.raw) :: publication (entryPlace w t i)) := by
  have hone := Course.install (w := w) (A := A) hbefore ht hi hblank (.done hafter)
  rwa [List.append_nil] at hone

/-- A table that is made is zeroed, then linked, and no leaf changes. -/
theorem works_of_linked (h : Sound m roots held) (hroot : root ∈ roots)
    (hr : Reaches m root path t) (hi : i < 512) (halloc : allocateTable m = .ok (some p) m₁)
    (hlink : (liftM (link (entryPlace m.frames.window t i) i p) : MemoryM Unit) m₁ = .ok () m₂)
    (hgrows : Grows m m₂ roots held) (hsame : SameLeaves m m₂ roots)
    (hnew : Reaches m₂ root (i :: path) p)
    (hQ : ∀ r, (∀ root ∈ roots, ∀ v, lookup r m.frames.window root v = m.lookup root v) → Q r) :
    Works m m₂ roots held Q := by
  have hc := h.consistent
  obtain ⟨m', hnone, -⟩ | ⟨p', m', hsome, hspares, hgrants⟩ := allocateTable_spec hc
  · cases halloc.symm.trans hnone
  cases halloc.symm.trans hsome
  obtain ⟨b, hrun, rfl⟩ := exists_of_onBoard hlink
  obtain ⟨e, htable, hlinked⟩ := happens_link hrun
  have hman := hspares.plan.manages.1 hgrants.owned.managed
  have hbound : p.num < 2 ^ 48 := by
    have h1 := hman.high
    have h2 := h.narrow
    omega
  rw [Entry.table_eq hman.aligned hbound, Except.ok.injEq] at htable
  have hwindow := hspares.plan.window
  have hram : b.ram = m₁.board.ram.setWord (entryPlace m.frames.window t i) e.raw :=
    hlinked.ram.trans (replay_word ..)
  obtain ⟨ss, hss, hall⟩ := (provided_allocateTable (P := fun q => q = p) halloc
    fun q hq => (Option.some.inj hq).symm).stores
  refine ⟨hgrows, ⟨_, hss.trans hlinked, Course.append ?_ ?_⟩, fun q hq => ?_⟩
  · refine course_of_provides h (fun s hs => hs.mono ?_) ?_ hQ hall (Ram.SameBank.refl _)
      fun q _ => Ram.SameOn.refl _ _ _
    · rintro q rfl
      exact ⟨hman, hgrants.not_owned, root, hroot, _, hnew⟩
    · rintro q rfl
      exact ⟨hman, hgrants.not_owned⟩
  · rw [← hss.ram]
    refine course_of_install ⟨root, hroot, path, hgrows.reaches root hroot path t hr⟩ hi ?_
      (hQ _ fun r hr' v => lookup_of_sameOwned h hspares.bank hspares.cells hr' v) (hQ _ ?_)
    · rw [← htable, Entry.addr_toTable hman.aligned hbound]
      exact fun _ => hgrants.zeroed
    · intro r hr' v
      rw [← hram, ← hsame r hr' v, ← hwindow]
      rfl
  · have ht := hspares.owned t (h.owned root hroot path t hr)
    have hin : Installs m₁ { m₁ with board := b } t i e := ⟨rfl, by rw [hwindow]; exact hram⟩
    have htouch := hin.touches hspares.consistent.usable ht.managed hi
    exact (htouch.owned hspares.consistent ht.managed).2 (hspares.owned q hq)

/-! ## Making tables -/

/-- Going down stores nothing but new tables and their links. `Q` may only ask that the leaves
are those of `g`. -/
theorem works_descendMaking (v : VirtAddr) (n : Nat) (h : Sound m roots held)
    (hroot : root ∈ roots) (hr : Reaches m root (v.trail k) t) (hk : k + n ≤ 3)
    (hwindow : m.frames.window = w) (hg : ∀ root ∈ roots, ∀ v, m.lookup root v = g root v)
    (hQ : ∀ r, (∀ root ∈ roots, ∀ v, lookup r w root v = g root v) → Q r)
    {o : Except MapError PhysAddr} (hrun : (descendMaking v t k n).run m = .ok o m') :
    Works m m' roots held Q := by
  induction n generalizing m k t with
  | zero =>
    cases hrun
    exact Works.refl h (hQ _ fun root hroot v => by rw [← hwindow]; exact hg root hroot v)
  | succ n ih =>
    have hQ' : ∀ r, (∀ root ∈ roots, ∀ v, lookup r m.frames.window root v = m.lookup root v) →
        Q r := by
      intro r hr
      refine hQ r fun root hroot v => ?_
      rw [← hwindow, hr root hroot v, hg root hroot v]
    have hlen : (v.trail k).length < 3 := by
      rw [VirtAddr.length_trail]
      omega
    rcases h.inner root hroot _ t hr hlen _ (v.slot_lt k) with hempty | ⟨htable, -⟩
    · obtain ⟨m₁, halloc, -⟩ | ⟨p, m₁, m₂, halloc, hlink, hgrows, hsame, hnew, -⟩ :=
        makeTable_spec h hroot hr hlen (v.slot_lt k) hempty
      · cases (run_descendMaking_missed hempty halloc).symm.trans hrun
        exact works_of_missed h halloc hQ'
      · have hlinked := works_of_linked h hroot hr (v.slot_lt k) halloc hlink hgrows hsame hnew hQ'
        obtain ⟨m₃, hnote, hgrows', hsame', -⟩ := note_spec hgrows.sound .trace .tables
          s!"L{k}[{v.slot k}] -> new table {p} for {v}"
        have hrest := (run_descendMaking_made hempty halloc hlink hnote).symm.trans hrun
        have hplan := hgrows.plan.trans hgrows'.plan
        have hg₃ := fun root hroot v => ((hsame.trans hsame') root hroot v).trans (hg root hroot v)
        have hlater := ih (k := k + 1) hgrows'.sound (hgrows'.reaches root hroot _ p hnew)
          (by omega) (hplan.window.trans hwindow) hg₃ hrest
        exact (hlinked.trans (works_note hgrows.sound hlinked.ended hnote)).trans hlater
    · rw [run_descendMaking_table htable] at hrun
      exact ih (k := k + 1) h (hr.link hlen (v.slot_lt k) htable) (by omega) hwindow hg hrun

theorem works_makeLeafTables (start : VirtAddr) (j n : Nat) (h : Sound m roots held)
    (hroot : root ∈ roots) (hwindow : m.frames.window = w)
    (hg : ∀ root ∈ roots, ∀ v, m.lookup root v = g root v)
    (hQ : ∀ r, (∀ root ∈ roots, ∀ v, lookup r w root v = g root v) → Q r)
    {o : Except MapError Unit} (hrun : (makeLeafTables root start j n).run m = .ok o m') :
    Works m m' roots held Q := by
  induction n generalizing m j with
  | zero =>
    cases hrun
    exact Works.refl h (hQ _ fun root hroot v => by rw [← hwindow]; exact hg root hroot v)
  | succ n ih =>
    obtain ⟨r, m₁, hfirst, hgrows, hsame, -⟩ :=
      makeLeafTable_spec (pageOf start (firstPageIn start j)) h hroot
    have hmade : Works m m₁ roots held Q := works_descendMaking _ 3 h hroot Reaches.root
      (Nat.le_refl 3) hwindow hg hQ hfirst
    rw [makeLeafTables] at hrun
    cases r with
    | error e =>
      cases (run_bindE_fail hfirst).symm.trans hrun
      exact hmade
    | ok t =>
      have hplan := hgrows.plan
      exact hmade.trans (ih (j + 1) hgrows.sound (hplan.window.trans hwindow)
        (fun root hroot v => (hsame root hroot v).trans (hg root hroot v))
        ((run_bindE_ok hfirst).symm.trans hrun))

/-! ## Writing leaves -/

/-- A leaf that is stored through a leaf table of a tree. -/
theorem works_of_installs (h : Sound m roots held) (hroot : root ∈ roots)
    (hr : Reaches m root path t) (hlen : path.length = 3) (hi : i < 512)
    (he : e = .empty ∨ e.isLeaf = true) {b : Board}
    (hevents : Happens m.board b (.store (.word (entryPlace m.frames.window t i) e.raw) ::
      publication (entryPlace m.frames.window t i)))
    (hbefore : Q m.board.ram) (hafter : Q b.ram) :
    Works m { m with board := b } roots held Q := by
  have hram : b.ram = m.board.ram.setWord (entryPlace m.frames.window t i) e.raw :=
    hevents.ram.trans (replay_word ..)
  have hin : Installs m { m with board := b } t i e := ⟨rfl, hram⟩
  have hc := h.consistent
  have howned := h.owned root hroot path t hr
  obtain ⟨hgrows, -, -⟩ := oneLeaf_of_installs h hroot hr hlen hi he hin
  refine ⟨hgrows, ⟨_, hevents, course_of_install ?_ hi ?_ hbefore (by rwa [← hram])⟩, ?_⟩
  · exact ⟨root, hroot, path, hgrows.reaches root hroot path t hr⟩
  · intro htable
    rcases he with rfl | hleaf
    · exact absurd htable (by decide)
    · rw [Entry.isTable_of_isLeaf hleaf] at htable
      cases htable
  · exact fun q hq => ((hin.touches hc.usable howned.managed hi).owned hc
      howned.managed).2 hq

theorem happens_mapPage {b b' : Board}
    (hrun : (mapPage w t v p f).run b = .ok (.ok ()) b') :
    Happens b b' (.store (.word (entryPlace w t (v.slot 3)) (leafOf p f).raw) ::
      publication (entryPlace w t (v.slot 3))) := by
  rcases run_mapPage t v p f with ⟨e, hno, -⟩ | ⟨-, hyes⟩
  · cases hrun.symm.trans (hno w b)
  · cases hrun.symm.trans (hyes w b)
    exact happens_installed ..

theorem happens_unmapPage {b b' : Board} {old : Entry}
    (hrun : (unmapPage w root v).run b = .ok (.ok old) b') :
    ∃ t, leafTable? b.ram w root v = some t ∧
      Happens b b' (.store (.word (entryPlace w t (v.slot 3)) Entry.empty.raw) ::
        publication (entryPlace w t (v.slot 3))) := by
  rw [run_unmapPage] at hrun
  cases hwalk : leafTable? b.ram w root v with
  | none =>
    rw [hwalk] at hrun
    cases hrun
  | some t =>
    rw [hwalk] at hrun
    dsimp only at hrun
    split at hrun
    · cases hrun
      exact ⟨t, rfl, happens_installed ..⟩
    · cases hrun

/-- Mapping one page through a leaf table of a tree, or refusing to. -/
theorem works_mapPage (h : Sound m roots held) (hroot : root ∈ roots)
    (hr : Reaches m root path t) (hlen : path.length = 3) {o : Except MapError Unit}
    (hrun : (Memory.request (mapPage m.frames.window t v p f)).run m = .ok o m')
    (hbefore : Q m.board.ram) (hafter : Q m'.board.ram) : Works m m' roots held Q := by
  rcases mapPage_spec v p f h hroot hr hlen with ⟨e, hno, -⟩ | ⟨hf, m₁, hyes, -⟩
  · cases hrun.symm.trans hno
    exact Works.refl h hbefore
  · cases hrun.symm.trans hyes
    obtain ⟨b, hb, rfl⟩ := exists_of_onBoard (x := (mapPage m.frames.window t v p f).run) hrun
    exact works_of_installs h hroot hr hlen (v.slot_lt 3) (Or.inr (Entry.isLeaf_toLeaf hf))
      (happens_mapPage hb) hbefore hafter

/-- Unmapping a page, or finding none. -/
theorem works_unmapPage (h : Sound m roots held) (hroot : root ∈ roots) {o : Except MapError Entry}
    (hrun : (Memory.request (unmapPage m.frames.window root v)).run m = .ok o m')
    (hbefore : Q m.board.ram) (hafter : Q m'.board.ram) : Works m m' roots held Q := by
  rcases unmapPage_spec v h hroot with ⟨hno, -⟩ | ⟨m₁, hyes, -⟩
  · cases hrun.symm.trans hno
    exact Works.refl h hbefore
  · cases hrun.symm.trans hyes
    obtain ⟨b, hb, rfl⟩ := exists_of_onBoard (x := (unmapPage m.frames.window root v).run) hrun
    obtain ⟨t, hwalk, hevents⟩ := happens_unmapPage hb
    exact works_of_installs h hroot (leafTable?_eq_some_iff.1 hwalk) (v.length_trail 3)
      (v.slot_lt 3) (Or.inl rfl) hevents hbefore hafter

/-! ## A range -/

/-- Pages that share their slots get the same leaf: a descriptor has room for 48 bits of a
frame's address. -/
theorem leafOf_eq_of_trail (h : (pageOf start i).trail 4 = (pageOf start j).trail 4) :
    leafOf (p.up (4096 * i)) f = leafOf (p.up (4096 * j)) f := by
  have hpage : (pageOf start i).num / 4096 = (pageOf start j).num / 4096 :=
    (VirtAddr.trail_four_eq_iff (start.canonical_add _) (start.canonical_add _)).1 h
  have hi := num_pageOf_mod start i
  have hj := num_pageOf_mod start j
  have hsame : i % 2 ^ 36 = j % 2 ^ 36 := by omega
  have hup : ∀ k, ((p.up (4096 * k)).val &&& Entry.addressMask).toNat =
      (p.num + 4096 * k) % 2 ^ 48 / 4096 * 4096 := by
    intro k
    have hnum : p.val.toNat = p.num := rfl
    rw [PhysAddr.up, Word.toNat_and_addressMask, UInt64.toNat_add, UInt64.toNat_ofNat', hnum]
    omega
  rw [leafOf, leafOf]
  congr 2
  apply UInt64.toNat_inj.1
  rw [hup, hup]
  omega

/-- Every leaf is as it was, or is that of a page of the range. -/
def Repaints (m m' : Memory) (roots : List PhysAddr) (root : PhysAddr) (start : VirtAddr)
    (p : PhysAddr) (f : Flags) : Prop :=
  ∀ r ∈ roots, ∀ v : VirtAddr, m'.lookup r v = m.lookup r v ∨
    r = root ∧ ∃ j, v.trail 4 = (pageOf start j).trail 4 ∧
      m'.lookup r v = leafOf (p.up (4096 * j)) f

theorem Between.congr {g₁ g₁' : PhysAddr → VirtAddr → Entry} (h : Between w roots g g' r)
    (hg : ∀ root ∈ roots, ∀ v, g root v = g₁ root v)
    (hg' : ∀ root ∈ roots, ∀ v, g' root v = g₁' root v) : Between w roots g₁ g₁' r := by
  intro root hroot v
  rw [← hg root hroot v, ← hg' root hroot v]
  exact h root hroot v

/-- What was in between when the rest began is in between in the end: the rest changes no leaf
that was changed before. -/
theorem Between.after (hone : OneLeaf m m₂ roots root ((pageOf start i).trail 4)
      (leafOf (p.up (4096 * i)) f)) (hrest : Repaints m₂ m' roots root start p f)
    (h : Between w roots m₂.lookup m'.lookup r) : Between w roots m.lookup m'.lookup r := by
  intro r hr v
  rcases h r hr v with hold | hnew
  · rw [hold, hone r hr v]
    split
    · rename_i hpage
      right
      rcases hrest r hr v with hsame | ⟨-, j, hj, hpainted⟩
      · rw [hsame, hone r hr v, if_pos hpage]
      · rw [hpainted]
        exact leafOf_eq_of_trail (hpage.2.symm.trans hj)
    · exact Or.inl rfl
  · exact Or.inr hnew

theorem Repaints.after (hone : OneLeaf m m₂ roots root ((pageOf start i).trail 4)
      (leafOf (p.up (4096 * i)) f)) (hrest : Repaints m₂ m' roots root start p f) :
    Repaints m m' roots root start p f := by
  intro r hr v
  rcases hrest r hr v with hsame | hpainted
  · rw [hsame, hone r hr v]
    split
    · rename_i hpage
      exact Or.inr ⟨hpage.1, i, hpage.2, rfl⟩
    · exact Or.inl rfl
  · exact Or.inr hpainted

/-- Looking the leaf table of a page up, or keeping the one of the page before. -/
theorem works_leafTableOf (h : Sound m roots held) (hroot : root ∈ roots)
    (hQ : ∀ r, (∀ root ∈ roots, ∀ v, lookup r m.frames.window root v = m.lookup root v) → Q r)
    {o : Except MapError PhysAddr}
    (hrun : (if i = 0 || (pageOf start i).slot 3 = 0 then makeLeafTable root (pageOf start i)
      else pure t : MapM PhysAddr).run m = .ok o m') : Works m m' roots held Q := by
  split at hrun
  · exact works_descendMaking _ 3 h hroot Reaches.root (Nat.le_refl 3) rfl (fun _ _ _ => rfl) hQ
      hrun
  · cases hrun
    exact Works.refl h (hQ _ fun _ _ _ => rfl)

/-- Writing leaves, whatever way it ends: at every moment an address has the leaf that it had
before or the one that it has in the end. -/
theorem works_writeLeaves (h : Sound m roots held) (hroot : root ∈ roots)
    (hs : start.num % 4096 = 0) (hp : p.num % 4096 = 0) (hf : Entry.Complete f)
    (ht : i ≠ 0 → Reaches m root ((pageOf start (i - 1)).trail 3) t)
    (hleft : leftBy ((writeLeaves root start p f t i n).run m) = m') :
    Works m m' roots held (Between m.frames.window roots m.lookup m'.lookup) ∧
      Repaints m m' roots root start p f := by
  induction n generalizing m i t with
  | zero =>
    cases hleft
    exact ⟨Works.refl h fun _ _ _ => Or.inl rfl, fun _ _ _ => Or.inl rfl⟩
  | succ n ih =>
    rw [writeLeaves_succ] at hleft
    obtain ⟨r₁, m₁, hrun₁, hgrows₁, hsame₁, hmade⟩ := leafTableOf_spec h hroot ht
    have hworks₁ : ∀ g', Works m m₁ roots held (Between m.frames.window roots m.lookup g') :=
      fun g' => works_leafTableOf h hroot (fun r hr root hroot v => Or.inl (hr root hroot v)) hrun₁
    -- If there is no leaf table or no frame, no leaf was written.
    have hended : m₁ = m' →
        Works m m' roots held (Between m.frames.window roots m.lookup m'.lookup) ∧
        Repaints m m' roots root start p f := by
      rintro rfl
      exact ⟨hworks₁ _, fun r hr v => Or.inl (hsame₁ r hr v)⟩
    cases r₁ with
    | error e =>
      rw [run_bindE_fail hrun₁] at hleft
      exact hended hleft
    | ok t₁ =>
      obtain ⟨hr₁, -⟩ := hmade
      rw [run_bindE_ok hrun₁] at hleft
      rcases run_frameOf hp i m₁ with ⟨hframe, hup⟩ | ⟨hstop, -⟩
      · rw [run_bindE_ok hframe, run_bindE_ok (run_getE m₁)] at hleft
        obtain ⟨e, -, hno⟩ | ⟨-, m₂, hrun₂, hgrows₂, hone, -⟩ := mapPage_spec
          (pageOf start i) (p.up (4096 * i)) f hgrows₁.sound hroot hr₁ (VirtAddr.length_trail _ 3)
        · exact absurd ⟨aligned_pageOf hs i, hup, hf⟩ hno
        · rw [run_bindE_ok hrun₂] at hleft
          obtain ⟨hworks, hrepaints⟩ := ih (i := i + 1) hgrows₂.sound
            (fun _ => hgrows₂.reaches root hroot _ t₁ hr₁) hleft
          have hone' : OneLeaf m m₂ roots root ((pageOf start i).trail 4)
              (leafOf (p.up (4096 * i)) f) := fun r hr v => by
            rw [hone r hr v, hsame₁ r hr v]
            rfl
          have hplan := hgrows₁.plan.trans hgrows₂.plan
          rw [hplan.window] at hworks
          have hrest := hworks.mono fun r hr => Between.after hone' hrepaints hr
          have hpage := works_mapPage hgrows₁.sound hroot hr₁ (VirtAddr.length_trail _ 3) hrun₂
            (hworks₁ m'.lookup).ended hrest.begun
          exact ⟨((hworks₁ _).trans hpage).trans hrest, Repaints.after hone' hrepaints⟩
      · rw [run_bindE_stop hstop] at hleft
        exact hended hleft

/-- Mapping a range, whatever way it ends. -/
theorem works_mapRange (h : Sound m roots held) (hroot : root ∈ roots)
    (hleft : leftBy ((mapRange root start stop p f).run m) = m') :
    Works m m' roots held (Between m.frames.window roots m.lookup m'.lookup) := by
  by_cases hask : Proper start stop p f
  · rw [run_mapRange_proper root hask m] at hleft
    obtain ⟨r₁, m₁, hrun₁, hgrows₁, hsame₁, -⟩ :=
      makeLeafTables_spec start 0 (leafTables start (pagesBetween start stop)) h hroot
    have hworks₁ : ∀ g', Works m m₁ roots held (Between m.frames.window roots m.lookup g') :=
      fun g' => works_makeLeafTables _ _ _ h hroot rfl (fun _ _ _ => rfl)
        (fun r hr root hroot v => Or.inl (hr root hroot v)) hrun₁
    rcases r₁ with e | _
    · rw [run_bindE_fail hrun₁] at hleft
      cases hleft
      exact hworks₁ _
    · rw [run_bindE_ok hrun₁] at hleft
      have hplan := hgrows₁.plan
      have hsecond : ∀ m₂, leftBy ((writeLeaves root start p f root 0
          (pagesBetween start stop)).run m₁) = m₂ →
          Works m m₂ roots held (Between m.frames.window roots m.lookup m₂.lookup) := by
        intro m₂ hm₂
        obtain ⟨hworks₂, -⟩ := works_writeLeaves (t := root) (i := 0) hgrows₁.sound hroot
          hask.start_aligned hask.frame_aligned hask.flags (fun h0 => absurd rfl h0) hm₂
        rw [hplan.window] at hworks₂
        exact (hworks₁ _).trans (hworks₂.mono fun r hr => hr.congr hsame₁ fun _ _ _ => rfl)
      cases hrun₂ : (writeLeaves root start p f root 0 (pagesBetween start stop)).run m₁ with
      | error e m₂ =>
        rw [run_bindE_stop hrun₂] at hleft
        cases hleft
        exact hsecond _ (by rw [hrun₂]; rfl)
      | ok r₂ m₂ =>
        have hworks := hsecond m₂ (by rw [hrun₂]; rfl)
        rcases r₂ with e | _
        · rw [run_bindE_fail hrun₂] at hleft
          cases hleft
          exact hworks
        · obtain ⟨m₃, hnote, -, hsame₃, -⟩ := note_spec hworks.grows.sound .trace .tables
            s!"mapped [{start}..{stop}) -> {p} ({pagesBetween start stop} pages)"
          rw [(run_bindE_ok hrun₂).trans (run_bindE_ok hnote)] at hleft
          cases hleft
          have hdone := hworks.mono fun r hr => hr.congr (fun _ _ _ => rfl)
            fun root hroot v => (hsame₃ root hroot v).symm
          exact hdone.trans (works_note hworks.grows.sound hdone.ended hnote)
  · obtain ⟨e, hrun, -⟩ := run_mapRange_refused root hask
    rw [hrun] at hleft
    cases hleft
    exact Works.refl h fun _ _ _ => Or.inl rfl

end Tables

/-! ## Requests to the mapper -/

/-- An operation of the mapper. -/
def Op.Maps : Op → Prop
  | .makeLeafTable .. | .mapRange .. | .mapPage .. | .unmapPage .. => True
  | .allocate | .newRoot | .park _ | .release _ | .write .. => False

namespace World

open Memory Tables

/-- What the walker may see on the way from `s` to `s'`, on which `es` happen. -/
structure Published (s s' : World) (es : List Event) : Prop where
  happens : Happens s.memory.board s'.memory.board es
  /-- The processor publishes the words that are stored, in their order, and does nothing else. -/
  exact : es.filter onCpu = (words es).flatMap publication
  /-- A word is published before anything else happens. -/
  immediate : ∀ pre a v post, es = pre ++ .store (.word a v) :: post → publication a <+: post
  /-- A word is an entry of a table below the roots, reached through the window. -/
  placed : ∀ a v, .store (.word a v) ∈ es → ∃ t i, s'.memory.HasTable s.roots t ∧ i < 512 ∧
    a = entryPlace s.memory.frames.window t i
  /-- Any other store is to the bitmap, or zeroes a frame that nobody owned and that becomes a
  table. -/
  others : ∀ st, .store st ∈ es → (∃ a v, st = .word a v) ∨
    s.memory.frames.Provides (fun p => ¬ s.memory.Owned p ∧ s'.memory.HasTable s.roots p) st
  /-- A table is all zero when it is linked. -/
  zeroed : ∀ pre a v post, es = pre ++ .store (.word a v) :: post →
    (⟨v⟩ : Entry).isTable = true → (replay s.memory.board.ram pre).Blank (⟨v⟩ : Entry).addr
  /-- At every moment an address has the leaf that it had before or the one that it has in the
  end, below every root. -/
  moments : ∀ pre, pre <+: es → ∀ root ∈ s.roots, ∀ v,
    lookup (replay s.memory.board.ram pre) s.memory.frames.window root v =
        s.memory.lookup root v ∨
      lookup (replay s.memory.board.ram pre) s.memory.frames.window root v =
        s'.memory.lookup root v

variable {s s' : World} {op : Op} {m m' : Memory}

/-- What the mapper did, as the walker may see it. -/
theorem published_of_works (h : Works s.memory s'.memory s.roots s.held
    (Between s.memory.frames.window s.roots s.memory.lookup s'.memory.lookup)) :
    ∃ es, Published s s' es := by
  obtain ⟨es, hes, hcourse⟩ := h.course
  have hword : ∀ pre a v post, es = pre ++ .store (.word a v) :: post → ∃ t i rest,
      s'.memory.HasTable s.roots t ∧ i < 512 ∧ a = entryPlace s.memory.frames.window t i ∧
      post = publication a ++ rest ∧ ((⟨v⟩ : Entry).isTable = true →
        (replay s.memory.board.ram pre).Blank (⟨v⟩ : Entry).addr) := by
    rintro pre a v post rfl
    rcases hcourse.split with hno | ⟨t, i, v', rest, ht, hi, hst, hpost, hblank⟩
    · cases hno
    · cases hst
      exact ⟨t, i, rest, ht, hi, rfl, hpost, hblank⟩
  refine ⟨es, hes, hcourse.exact (fun a v hno => by cases hno), ?_, ?_, ?_, ?_,
    fun pre hpre => hcourse.moments hpre⟩
  · intro pre a v post hsplit
    obtain ⟨-, -, rest, -, -, -, hpost, -⟩ := hword pre a v post hsplit
    exact ⟨rest, hpost.symm⟩
  · intro a v hmem
    obtain ⟨pre, post, hsplit⟩ := List.append_of_mem hmem
    obtain ⟨t, i, -, ht, hi, ha, -⟩ := hword pre a v post hsplit
    exact ⟨t, i, ht, hi, ha⟩
  · intro st hmem
    obtain ⟨pre, post, rfl⟩ := List.append_of_mem hmem
    rcases hcourse.split with hprovides | ⟨t, i, v, -, -, -, hst, -⟩
    · exact Or.inr (hprovides.mono fun p hp => hp.2)
    · exact Or.inl ⟨_, v, hst⟩
  · intro pre a v post hsplit
    obtain ⟨-, -, -, -, -, -, -, hblank⟩ := hword pre a v post hsplit
    exact hblank

theorem after_memory {α : Type} (s : World) (r : EStateM.Result Fatal Memory α) :
    (s.after r).memory = leftBy r := by
  cases r <;> rfl

theorem Good.works (h : s.Good) (ha : s.Allows op) (hop : op.Maps) :
    Works s.memory (s.step op).memory s.roots s.held
      (Between s.memory.frames.window s.roots s.memory.lookup (s.step op).memory.lookup) := by
  cases op with
  | makeLeafTable root v =>
    obtain ⟨r, m, hrun, -⟩ := makeLeafTable_spec v h.sound ha
    have hworks : Works s.memory m s.roots s.held
        (Between s.memory.frames.window s.roots s.memory.lookup m.lookup) :=
      works_descendMaking v 3 h.sound ha Reaches.root (Nat.le_refl 3) rfl (fun _ _ _ => rfl)
        (fun r hr root hroot v => Or.inl (hr root hroot v)) hrun
    rw [World.step, hrun]
    cases r with
    | error e => exact hworks
    | ok t => exact hworks
  | mapRange root start stop p f =>
    rw [step_mapRange]
    exact works_mapRange h.sound ha (after_memory ..).symm
  | mapPage t v p f =>
    obtain ⟨root, hroot, path, hlen, hr⟩ := h.leafTables t ha
    have hrun : ∃ o m,
        (Memory.request (Tables.mapPage s.memory.frames.window t v p f)).run s.memory =
          .ok o m := by
      rcases mapPage_spec v p f h.sound hroot hr hlen with ⟨e, hrun, -⟩ | ⟨-, m, hrun, -⟩
      · exact ⟨_, _, hrun⟩
      · exact ⟨_, _, hrun⟩
    obtain ⟨o, m, hrun⟩ := hrun
    rw [step_mapPage, hrun]
    have hframes := frames_of_request hrun
    refine works_mapPage h.sound hroot hr hlen hrun (fun _ _ _ => Or.inl rfl) fun root _ v => ?_
    rw [← hframes]
    exact Or.inr rfl
  | unmapPage root v =>
    have hrun : ∃ o m,
        (Memory.request (Tables.unmapPage s.memory.frames.window root v)).run s.memory =
          .ok o m := by
      rcases unmapPage_spec v h.sound ha with ⟨hrun, -⟩ | ⟨m, hrun, -⟩
      · exact ⟨_, _, hrun⟩
      · exact ⟨_, _, hrun⟩
    obtain ⟨o, m, hrun⟩ := hrun
    rw [step_unmapPage, hrun]
    have hframes := frames_of_request hrun
    refine works_unmapPage h.sound ha hrun (fun _ _ _ => Or.inl rfl) fun root _ v => ?_
    rw [← hframes]
    exact Or.inr rfl
  | _ => exact absurd hop id

/-- Every request to the mapper publishes what it stores, links zeroed tables only, and lets no
address have a leaf that it has neither before nor after, whatever way the request ends. -/
theorem Good.published (h : s.Good) (ha : s.Allows op) (hop : op.Maps) :
    ∃ es, Published s (s.step op) es :=
  published_of_works (h.works ha hop)

/-- Two pages on both sides of a boundary between leaf tables, mapped in the small store: the
walker sees four new tables and two leaves come. -/
theorem Good.published_sample :
    ∃ s root es, s.Good ∧ s.roots = [root] ∧ (∀ v, s.memory.lookup root v = .empty) ∧
      s.Allows (.mapRange root ⟨0x1FF000⟩ ⟨0x201000⟩ ⟨0x40010000⟩ .data) ∧
      Op.Maps (.mapRange root ⟨0x1FF000⟩ ⟨0x201000⟩ ⟨0x40010000⟩ .data) ∧
      Published s (s.step (.mapRange root ⟨0x1FF000⟩ ⟨0x201000⟩ ⟨0x40010000⟩ .data)) es := by
  obtain ⟨m₀, -, hset, -, hsupply₀, htop⟩ := setUp_sample
  have hsound₀ := sound_of_setUp hset (by rw [htop]; decide)
  rcases newRoot_spec hsound₀ with
    ⟨-, -, -, -, hzero⟩ | ⟨root, m₁, -, hsound, -, -, -, hempty, -⟩
  · omega
  · have hgood : Good ⟨m₁, [root], [], []⟩ := ⟨hsound, nofun⟩
    have hallows : World.Allows ⟨m₁, [root], [], []⟩
        (.mapRange root ⟨0x1FF000⟩ ⟨0x201000⟩ ⟨0x40010000⟩ .data) := List.mem_singleton.2 rfl
    obtain ⟨es, hpublished⟩ := Good.published hgood hallows trivial
    exact ⟨_, root, es, hgood, rfl, hempty, hallows, trivial, hpublished⟩

end World

end HighHalf
