import HighHalf.Proofs.Tables.Closure
import HighHalf.Proofs.Tables.Ranges
import HighHalf.Proofs.Window.Mirror

/-!
# The mapper through two windows

A step of the mapper reads and writes descriptors in RAM, at places that it computes from the window
in force. As long as the tables it goes through are frames of the store, it reads the same through
every window that shows RAM, so it takes the same way, and it stores the same. That the walks stay
among those frames is kept along with it.

## Main results

* `Memory.Twin.descend`: a walk goes the same way through both windows
* `Memory.Follows.entry_stored`: a descriptor is stored through both windows
* `Memory.alike_descendMaking`, `Memory.alike_mapRange`, `Memory.alike_unmapPage`: what the mapper
  does is the same through both windows
-/

namespace HighHalf

namespace Memory

open Tables

variable {o o' m m' n n' : Memory} {t p root : PhysAddr} {v : VirtAddr} {i j k : Nat} {e : Entry}
  {f : Flags} {N : List PhysAddr} {α β : Type}

/-! ## Reading the trees -/

/-- An entry of a frame of the store is the same through both windows. -/
theorem Twin.entry (h : Twin m m') (hu : Usable m) (ht : m.frames.Manages t) (hi : i < 512) :
    m'.entry t i = m.entry t i := by
  rw [Memory.entry, Memory.entry, h.ram]
  exact entry_congr h.shows h.shows' (Ram.SameBank.refl _) (hu.has ht) hi (Ram.SameOn.refl _ _ _)

/-- A walk from a tidy table goes the same way through both windows, and ends at a tidy one. -/
theorem Twin.descend (h : Twin m m') (hu : Usable m) (ht : Tidy m t) (level n : Nat) :
    Tables.descend m'.board.ram m'.frames.window v t level n =
        Tables.descend m.board.ram m.frames.window v t level n ∧
      ∀ u, Tables.descend m.board.ram m.frames.window v t level n = some u → Tidy m u := by
  induction n generalizing t level with
  | zero =>
    refine ⟨rfl, fun u hu => ?_⟩
    cases hu
    exact ht
  | succ n ih =>
    have hentry : Tables.entry m.board.ram m.frames.window t (v.slot level) =
        m.entry t (v.slot level) := rfl
    have hentry' : Tables.entry m'.board.ram m'.frames.window t (v.slot level) =
        m.entry t (v.slot level) := h.entry hu ht.managed (v.slot_lt level)
    unfold Tables.descend
    simp only [hentry, hentry']
    cases htable : (m.entry t (v.slot level)).isTable with
    | true =>
      rw [if_pos rfl, if_pos rfl]
      exact ih (ht.link (v.slot_lt level) htable) _
    | false =>
      rw [if_neg Bool.false_ne_true, if_neg Bool.false_ne_true]
      refine ⟨rfl, fun u hu => ?_⟩
      cases hu

theorem Twin.lookup (h : Twin m m') (hu : Usable m) (ht : Tidy m root) (v : VirtAddr) :
    m'.lookup root v = m.lookup root v := by
  obtain ⟨hsame, htidy⟩ := h.descend (v := v) hu ht 0 3
  rw [Memory.lookup, Memory.lookup, Tables.lookup, Tables.lookup, leafTable?, leafTable?, hsame]
  cases hwalk : Tables.descend m.board.ram m.frames.window v root 0 3 with
  | none => rfl
  | some u =>
    have hentry : Tables.entry m'.board.ram m'.frames.window u (v.slot 3) =
        Tables.entry m.board.ram m.frames.window u (v.slot 3) :=
      h.entry hu (htidy u hwalk).managed (v.slot_lt 3)
    simp only [hentry]

theorem Twin.resolve (h : Twin m m') (hu : Usable m) (ht : Tidy m root) (v : VirtAddr) :
    Tables.resolve m'.board.ram m'.frames.window root v =
      Tables.resolve m.board.ram m.frames.window root v := by
  have hlookup : Tables.lookup m'.board.ram m'.frames.window root v =
      Tables.lookup m.board.ram m.frames.window root v := h.lookup hu ht v
  rw [Tables.resolve, Tables.resolve, hlookup]

/-! ## Changing the trees -/

/-- A descriptor is stored and published. -/
theorem Follows.installed {a a' : Word} (h : Follows o o' m m') (ha : a' = a + m.lead m')
    (hset : m.board.ram.setWord a' e.raw = m.board.ram.setWord a e.raw) :
    Follows o o' { m with board := m.board.installed a e }
      { m' with board := m'.board.installed a' e } := by
  have hram : (m'.board.installed a' e).ram = (m.board.installed a e).ram := by
    rw [Board.ram_installed, Board.ram_installed, h.ram, hset]
  have hbank : Ram.SameBank m.board.ram (m.board.installed a e).ram := by
    rw [Board.ram_installed]
    exact Ram.sameBank_setWord ..
  have hevents : ∀ (b : Board) a, (b.installed a e).trace.toList =
      b.trace.toList ++ [.store (.word a e.raw), .clean a, .dsb .inner, .isb] := by
    intro b a
    simp only [Board.installed, Array.toList_push, List.append_assoc, List.cons_append,
      List.nil_append]
  refine h.board hram ?_ ?_ hbank ⟨_, hevents m.board a, ?_⟩ ⟨[], ?_, ?_⟩
  · simp only [Board.installed, h.cpu]
  · simp only [Board.installed, h.console]
  · rw [hevents, ha]
    rfl
  · simp only [Board.installed, List.append_nil]
  · simp only [Board.installed, List.append_nil]

/-- The place of an entry of a table in RAM. -/
theorem Twin.entryPlace (h : Twin m m') (ht : m.board.ram.Has t.num 4096) (hi : i < 512)
    (v : Word) :
    Tables.entryPlace m'.frames.window t i = Tables.entryPlace m.frames.window t i + m.lead m' ∧
      m.board.ram.setWord (Tables.entryPlace m'.frames.window t i) v =
        m.board.ram.setWord (Tables.entryPlace m.frames.window t i) v := by
  obtain ⟨hnum, hhas⟩ := has_entry h.shows ht hi
  rw [entryPlace_eq, entryPlace_eq]
  exact ⟨Window.reach_lead .., h.shows.setWord_reach h.shows' (by rw [hnum]; exact hhas) v⟩

/-- An entry of a table in RAM is stored. If it is a table descriptor, it leads to a tidy table. -/
theorem Follows.entry_stored (h : Follows o o' m m') (hk : Kept N m) (ht : t ∈ N) (hi : i < 512)
    (he : e.isTable = true → Tidy m e.addr) :
    Follows o o' { m with board := m.board.installed (Tables.entryPlace m.frames.window t i) e }
        { m' with board := m'.board.installed (Tables.entryPlace m'.frames.window t i) e } ∧
      Kept N { m with board := m.board.installed (Tables.entryPlace m.frames.window t i) e } := by
  have htidy := hk.tidy t ht
  obtain ⟨hplace, hset⟩ := h.entryPlace (hk.usable.has htidy.managed) hi e.raw
  exact ⟨h.installed hplace hset, hk.installs ⟨rfl, Board.ram_installed ..⟩ htidy hi he⟩

/-! ## Steps that may be refused -/

section Fail

variable {ε : Type} {Q : Except ε α → Memory → Prop} {S : Except ε β → Memory → Prop}

theorem Alike.bindE {x y : ExceptT ε MemoryM α} {f g : α → ExceptT ε MemoryM β}
    (hx : Alike o o' Q (x.run m) (y.run m'))
    (hf : ∀ a n n', Follows o o' n n' → Q (.ok a) n → Alike o o' S ((f a).run n) ((g a).run n'))
    (he : ∀ e n, Q (.error e) n → S (.error e) n) :
    Alike o o' S ((x >>= f).run m) ((y >>= g).run m') := by
  refine Alike.bind (f := ExceptT.bindCont f) (g := ExceptT.bindCont g) hx ?_
  rintro (e | a) n n' hn hq
  · exact .ok hn (he e n hq)
  · exact hf a n n' hn hq

/-- A step that is never refused. -/
theorem Alike.lift {x y : MemoryM α} {R : α → Memory → Prop} (hx : Alike o o' R (x m) (y m'))
    (hR : ∀ a n, R a n → Q (.ok a) n) :
    Alike o o' Q ((liftM x : ExceptT ε MemoryM α).run m)
      ((liftM y : ExceptT ε MemoryM α).run m') :=
  Alike.bind (f := fun a => (pure (.ok a) : MemoryM (Except ε α)))
    (g := fun a => (pure (.ok a) : MemoryM (Except ε α))) hx
    fun a _ _ hn hq => .ok hn (hR a _ hq)

end Fail

/-! ## Making tables -/

theorem alike_allocateTable_kept (h : Follows o o' m m') (hk : Kept N m) :
    Alike o o' (fun r n => Kept (r.toList ++ N) n) (allocateTable m) (allocateTable m') :=
  (alike_allocateTable h (.usable hk.usable)).mono fun _ _ hrun _ => hk.allocateTable hrun

/-- Linking a table that has just been made. The entry is where it was before that. -/
theorem alike_link (h : Follows o o' m m') (hk : Kept N m) (ht : t ∈ N) (hp : p ∈ N)
    (hi : i < 512) (j : Nat) :
    Alike o o' (fun _ n => Kept N n)
      ((liftM (Tables.link (Tables.entryPlace o.frames.window t i) j p) : MemoryM Unit) m)
      ((liftM (Tables.link (Tables.entryPlace o'.frames.window t i) j p) : MemoryM Unit) m') := by
  rw [← h.window, ← h.window']
  have hentry := h.entry hk.usable (hk.tidy t ht).managed hi
  have hword : Entry.mk (m.board.ram.word (Tables.entryPlace m.frames.window t i)) =
    m.entry t i := rfl
  have hword' : Entry.mk (m'.board.ram.word (Tables.entryPlace m'.frames.window t i)) =
    m.entry t i := hentry
  cases hleaf : (m.entry t i).isLeaf with
  | true =>
    rw [run_onBoard_stop (Tables.run_link_leaf (by rw [hword, hleaf])),
      run_onBoard_stop (Tables.run_link_leaf (by rw [hword', hleaf]))]
    exact .stop h
  | false =>
    have hframe := hk.tidy p hp
    have haligned := hframe.managed.aligned
    have hnum := hk.num_lt hframe.managed
    have htable := Entry.table_eq haligned hnum
    obtain ⟨hn, hkept⟩ := h.entry_stored (e := .toTable p) hk ht hi fun _ => by
      rw [Entry.addr_toTable haligned hnum]
      exact hframe
    rw [run_onBoard (Tables.run_link (by rw [hword, hleaf]) htable),
      run_onBoard (Tables.run_link (by rw [hword', hleaf]) htable)]
    exact .ok hn hkept

/-- Going down, tables are made and linked through either window alike. The tables that are passed
are tidy, so the walk stays in RAM. -/
theorem alike_descendMaking (v : VirtAddr) (n : Nat) (h : Follows o o' m m') (hk : Kept N m)
    (ht : t ∈ N) :
    Alike o o' (fun r n => Kept (r.toOption.toList ++ N) n)
      ((Tables.descendMaking v t k n).run m) ((Tables.descendMaking v t k n).run m') := by
  induction n generalizing m m' t k N with
  | zero => exact .ok h (hk.cons (hk.tidy t ht))
  | succ n ih =>
    have hentry := h.entry hk.usable (hk.tidy t ht).managed (v.slot_lt k)
    rw [Tables.descendMaking, run_bindE_ok (run_getE m), run_bindE_ok (run_getE m'),
      run_bindE_ok (run_loadEntry m t _), run_bindE_ok (run_loadEntry m' t _), hentry, h.window,
      h.window']
    -- Whatever the walk goes on with is named first and forgotten again at its end.
    have hdown : ∀ {n₁ n₁' : Memory} {u : PhysAddr}, Follows o o' n₁ n₁' → Kept (u :: N) n₁ →
        Alike o o' (fun r n => Kept (r.toOption.toList ++ N) n)
          ((Tables.descendMaking v u (k + 1) n).run n₁)
          ((Tables.descendMaking v u (k + 1) n).run n₁') := fun hn hkept =>
      (ih hn hkept List.mem_cons_self).mono fun _ _ _ hr => hr.forget
    cases htable : (m.entry t (v.slot k)).isTable with
    | true =>
      simp only [htable, if_true]
      exact hdown h (hk.link ht (v.slot_lt k) htable)
    | false =>
      simp only [htable, Bool.false_eq_true, if_false]
      cases hvalid : (m.entry t (v.slot k)).isValid with
      | true =>
        simp only [if_true]
        exact .ok (h.noted ..) (hk.keeps (keeps_noted ..))
      | false =>
        simp only [Bool.false_eq_true, if_false]
        refine Alike.bindE (Q := fun r n => Kept ((r.toOption.bind id).toList ++ N) n)
          (Alike.lift (alike_allocateTable_kept h hk) fun _ _ hr => hr) ?_ fun _ _ hr => hr
        rintro (_ | p) n₁ n₁' hn hkept
        · exact .ok hn hkept
        · refine Alike.bindE (Q := fun _ n => Kept (p :: N) n)
            (Alike.lift (alike_link hn hkept (List.mem_cons_of_mem _ ht) List.mem_cons_self
              (v.slot_lt k) _) fun _ _ hr => hr) (fun _ n₂ n₂' hn₂ hkept₂ => ?_)
            fun _ _ hr => hr.tail
          refine Alike.bindE (Q := fun _ n => Kept (p :: N) n)
            (.ok (hn₂.noted ..) (hkept₂.keeps (keeps_noted ..))) (fun _ n₃ n₃' hn₃ hkept₃ => ?_)
            fun _ _ hr => hr.tail
          exact hdown hn₃ hkept₃

theorem alike_makeLeafTable (v : VirtAddr) (h : Follows o o' m m') (hk : Kept N m)
    (hroot : root ∈ N) :
    Alike o o' (fun r n => Kept (r.toOption.toList ++ N) n)
      ((Tables.makeLeafTable root v).run m) ((Tables.makeLeafTable root v).run m') :=
  alike_descendMaking v 3 h hk hroot

theorem alike_makeLeafTables (start : VirtAddr) (j k : Nat) (h : Follows o o' m m')
    (hk : Kept N m) (hroot : root ∈ N) :
    Alike o o' (fun _ n => Kept N n) ((Tables.makeLeafTables root start j k).run m)
      ((Tables.makeLeafTables root start j k).run m') := by
  induction k generalizing m m' j with
  | zero => exact .ok h hk
  | succ k ih =>
    refine Alike.bindE (alike_makeLeafTable _ h hk hroot) (fun t n n' hn hkept => ?_)
      fun _ _ hr => hr
    exact ih (j + 1) hn (hkept.mono fun _ hs => List.mem_append_right _ hs)

/-! ## Writing leaves -/

theorem alike_mapPage (v : VirtAddr) (p : PhysAddr) (f : Flags) (h : Follows o o' m m')
    (hk : Kept N m) (ht : t ∈ N) :
    Alike o o' (fun _ n => Kept N n)
      ((Memory.request (Tables.mapPage m.frames.window t v p f)).run m)
      ((Memory.request (Tables.mapPage m'.frames.window t v p f)).run m') := by
  rcases Tables.run_mapPage t v p f with ⟨e, hrun, -⟩ | ⟨hf, hrun⟩
  · rw [run_request (hrun ..), run_request (hrun ..)]
    exact .ok h hk
  · obtain ⟨hn, hkept⟩ := h.entry_stored (e := Tables.leafOf p f) hk ht (v.slot_lt 3) fun htable =>
      absurd ((Tables.isTable_leafOf p hf).symm.trans htable) Bool.false_ne_true
    rw [run_request (hrun ..), run_request (hrun ..)]
    exact .ok hn hkept

theorem alike_writeLeaves (start : VirtAddr) (p : PhysAddr) (f : Flags) (i k : Nat)
    (h : Follows o o' m m') (hk : Kept N m) (hroot : root ∈ N) (ht : t ∈ N) :
    Alike o o' (fun _ n => Kept N n) ((Tables.writeLeaves root start p f t i k).run m)
      ((Tables.writeLeaves root start p f t i k).run m') := by
  induction k generalizing m m' t i N with
  | zero => exact .ok h hk
  | succ k ih =>
    rw [Tables.writeLeaves_succ]
    have htable : Alike o o' (fun r n => Kept (r.toOption.toList ++ N) n)
        ((if i = 0 || (Tables.pageOf start i).slot 3 = 0 then
          Tables.makeLeafTable root (Tables.pageOf start i) else pure t : MapM PhysAddr).run m)
        ((if i = 0 || (Tables.pageOf start i).slot 3 = 0 then
          Tables.makeLeafTable root (Tables.pageOf start i) else pure t :
            MapM PhysAddr).run m') := by
      split
      · exact alike_makeLeafTable _ h hk hroot
      · exact .ok h (hk.cons (hk.tidy t ht))
    refine Alike.bindE htable (fun u n n' hn hkept => ?_) fun _ _ hr => hr
    cases hframe : p.add (UInt64.ofNat (4096 * i)) with
    | error e => exact .stop hn
    | ok q =>
      have hplain : ∀ m, (liftM (Except.ok q : Except Fatal PhysAddr) : MapM PhysAddr).run m =
        .ok (.ok q) m := fun _ => rfl
      rw [run_bindE_ok (hplain n), run_bindE_ok (hplain n'), run_bindE_ok (run_getE n),
        run_bindE_ok (run_getE n')]
      refine Alike.bindE (alike_mapPage _ q f hn hkept List.mem_cons_self)
        (fun _ n₁ n₁' hn₁ hkept₁ => ?_) fun _ _ hr => hr.tail
      exact (ih (i + 1) hn₁ hkept₁ (List.mem_cons_of_mem _ hroot) List.mem_cons_self).mono
        fun _ _ _ hr => hr.tail

theorem alike_mapRange (start stop : VirtAddr) (p : PhysAddr) (f : Flags)
    (h : Follows o o' m m') (hk : Kept N m) (hroot : root ∈ N) :
    Alike o o' (fun _ n => Kept N n) ((Tables.mapRange root start stop p f).run m)
      ((Tables.mapRange root start stop p f).run m') := by
  by_cases hask : Tables.Proper start stop p f
  · rw [Tables.run_mapRange_proper root hask m, Tables.run_mapRange_proper root hask m']
    refine Alike.bindE (alike_makeLeafTables start 0 _ h hk hroot) (fun _ n n' hn hkept => ?_)
      fun _ _ hr => hr
    refine Alike.bindE (alike_writeLeaves start p f 0 _ hn hkept hroot hroot)
      (fun _ n₁ n₁' hn₁ hkept₁ => ?_) fun _ _ hr => hr
    exact .ok (hn₁.noted ..) (hkept₁.keeps (keeps_noted ..))
  · obtain ⟨e, hrun, -⟩ := Tables.run_mapRange_refused root hask
    rw [hrun m, hrun m']
    exact .ok h hk

theorem alike_unmapPage (v : VirtAddr) (h : Follows o o' m m') (hk : Kept N m)
    (hroot : root ∈ N) :
    Alike o o' (fun _ n => Kept N n)
      ((Memory.request (Tables.unmapPage m.frames.window root v)).run m)
      ((Memory.request (Tables.unmapPage m'.frames.window root v)).run m') := by
  obtain ⟨hsame, htidy⟩ := h.descend (v := v) hk.usable (hk.tidy root hroot) 0 3
  have hrun := Tables.run_unmapPage m.frames.window root v m.board
  have hrun' := Tables.run_unmapPage m'.frames.window root v m'.board
  rw [Tables.leafTable?] at hrun hrun'
  rw [hsame] at hrun'
  cases hwalk : Tables.descend m.board.ram m.frames.window v root 0 3 with
  | none =>
    rw [hwalk] at hrun hrun'
    rw [run_request hrun, run_request hrun']
    exact .ok h hk
  | some u =>
    have hu := htidy u hwalk
    have hentry : Tables.entry m'.board.ram m'.frames.window u (v.slot 3) =
        Tables.entry m.board.ram m.frames.window u (v.slot 3) :=
      h.entry hk.usable hu.managed (v.slot_lt 3)
    rw [hwalk] at hrun hrun'
    dsimp only at hrun hrun'
    rw [hentry] at hrun'
    cases hvalid : (Tables.entry m.board.ram m.frames.window u (v.slot 3)).isValid with
    | false =>
      rw [hvalid, if_neg Bool.false_ne_true] at hrun hrun'
      rw [run_request hrun, run_request hrun']
      exact .ok h hk
    | true =>
      obtain ⟨hn, hkept⟩ := h.entry_stored (e := .empty) (hk.cons hu) List.mem_cons_self
        (v.slot_lt 3) fun htable => absurd htable (by decide)
      rw [hvalid, if_pos rfl] at hrun hrun'
      rw [run_request hrun, run_request hrun']
      exact .ok hn hkept.tail

end Memory

end HighHalf
