import HighHalf.Proofs.Frames.Lifetime
import HighHalf.Proofs.Frames.Plan

/-!
# What the store remembers

The store remembers the frames it took and took back in a ring. The ring is read backwards from its
head and ends at the first slot that was never filled, so it shows the newest events as long as
every slot behind the head holds the event that happened that many events ago. A push keeps that,
whether or not it goes round the end, and nothing else touches the ring.

## Main definitions

* `Ring.Recalls`: which values a ring holds, of all that were pushed into it
* `Memory.Deed`: one thing that happens to the store, with the events that it is remembered by
* `Memory.Told`: the states of a store, with all events since it was made
-/

namespace HighHalf

/-! ## Rings -/

namespace Ring

variable {α : Type} {n k : Nat} {r : Ring α n} {as bs : List α} {a : α}

/-- Of all the values `as` that were pushed into the ring, newest first, every slot behind the head
holds the one that is as far back. -/
structure Recalls (r : Ring α n) (as : List α) : Prop where
  head_lt : r.head < n
  behind : ∀ k < n, r.behind (k + 1) = as[k]?

/-- Push one value after the other. -/
def pushAll (r : Ring α n) (as : List α) : Ring α n := as.foldl push r

/-- The slot right behind the next head is the head. -/
theorem place_one {head : Nat} (hhead : head < n) : ((head + 1) % n + n - 1) % n = head := by
  by_cases hlast : head + 1 = n
  · rw [hlast, Nat.mod_self, Nat.zero_add, Nat.mod_eq_of_lt (by omega)]
    omega
  · have hnext : (head + 1) % n = head + 1 := Nat.mod_eq_of_lt (by omega)
    rw [hnext, show head + 1 + n - 1 = head + n by omega, Nat.add_mod_right,
      Nat.mod_eq_of_lt hhead]

/-- Seen from the next head, every slot is one place further back. -/
theorem place_succ {head back : Nat} (hhead : head < n) (hback : back < n) :
    ((head + 1) % n + n - (back + 1)) % n = (head + n - back) % n := by
  by_cases hlast : head + 1 = n
  · rw [hlast, Nat.mod_self, show head + n - back = 0 + n - (back + 1) + n by omega,
      Nat.add_mod_right]
  · have hnext : (head + 1) % n = head + 1 := Nat.mod_eq_of_lt (by omega)
    rw [hnext, show head + 1 + n - (back + 1) = head + n - back by omega]

/-- A slot less than a whole round behind the head is not the head. -/
theorem place_ne {head back : Nat} (hhead : head < n) (hpos : 0 < back) (hback : back < n) :
    head ≠ (head + n - back) % n := by
  by_cases hle : back ≤ head
  · rw [show head + n - back = head - back + n by omega, Nat.add_mod_right,
      Nat.mod_eq_of_lt (by omega)]
    omega
  · rw [Nat.mod_eq_of_lt (by omega)]
    omega

theorem recalls_empty (hn : 0 < n) : Recalls (empty : Ring α n) [] where
  head_lt := hn
  behind := by
    intro k hk
    have hlt : (0 + n - (k + 1)) % n < n := Nat.mod_lt _ hn
    rw [Ring.behind, empty, Vector.getElem?_replicate, if_pos hlt]
    rfl

/-- The newest value is right behind the head, and every other one is one place further back. -/
theorem Recalls.push (h : Recalls r as) (a : α) : Recalls (r.push a) (a :: as) where
  head_lt := Nat.mod_lt _ (Nat.lt_of_le_of_lt (Nat.zero_le _) h.head_lt)
  behind := by
    intro k hk
    have hhead := h.head_lt
    cases k with
    | zero =>
      rw [List.getElem?_cons_zero, Ring.behind, Ring.push, place_one hhead,
        Vector.getElem?_setIfInBounds_self, if_pos hhead]
      rfl
    | succ j =>
      rw [List.getElem?_cons_succ, ← h.behind j (by omega), Ring.behind, Ring.behind, Ring.push,
        place_succ hhead hk, Vector.getElem?_setIfInBounds_ne (place_ne hhead (by omega) hk)]

theorem Recalls.pushAll (h : Recalls r as) (bs : List α) :
    Recalls (r.pushAll bs) (bs.reverse ++ as) := by
  induction bs generalizing r as with
  | nil => exact h
  | cons b bs ih =>
    have hrest := ih (h.push b)
    rwa [List.reverse_cons, List.append_assoc, List.singleton_append]

theorem untilHole_map_range (as : List α) (n : Nat) :
    untilHole ((List.range n).map fun k => as[k]?) = as.take n := by
  induction n generalizing as with
  | zero => rfl
  | succ n ih =>
    rw [List.range_succ_eq_map, List.map_cons, List.map_map]
    cases as with
    | nil => rfl
    | cons a as =>
      rw [List.getElem?_cons_zero, untilHole, List.take_succ_cons, ← ih as]
      rfl

/-- A ring shows the newest values, as many as it has slots. -/
theorem Recalls.toList_eq (h : Recalls r as) : r.toList = as.take n := by
  have hslots : ((List.range n).map fun k => r.behind (k + 1)) =
      (List.range n).map fun k => as[k]? :=
    List.map_congr_left fun k hk => h.behind k (List.mem_range.1 hk)
  rw [toList, hslots, untilHole_map_range]

end Ring

namespace Memory

variable {m m' m₁ : Memory} {es : List FrameEvent} {ps : List PhysAddr} {p : PhysAddr}
  {r : Option PhysAddr} {n k : Nat} {α : Type}

/-! ## Steps that are not remembered -/

/-- Nothing new is remembered, and nothing is parked. -/
structure Quiet (m m' : Memory) : Prop where
  recent : m'.frames.recent = m.frames.recent
  parked : m'.frames.parked = m.frames.parked

instance : Std.Refl Quiet := ⟨fun _ => ⟨rfl, rfl⟩⟩

instance : IsTrans Memory Quiet :=
  ⟨fun _ _ _ h h' => ⟨h'.recent.trans h.recent, h'.parked.trans h.parked⟩⟩

theorem quiet_onBoard (x : BoardM α) : Ensures Quiet (liftM x : MemoryM α) := by
  refine ⟨fun hrun => ?_⟩
  obtain ⟨b, -, rfl⟩ := exists_of_onBoard hrun
  exact ⟨rfl, rfl⟩

theorem quiet_updateFrames {g : Frames → Frames} (hrecent : ∀ f, (g f).recent = f.recent)
    (hparked : ∀ f, (g f).parked = f.parked) : Ensures Quiet (updateFrames g) := by
  refine ⟨fun hrun => ?_⟩
  cases hrun
  exact ⟨hrecent _, hparked _⟩

theorem quiet_mark (i : Nat) (used : Bool) : Ensures Quiet (mark i used) := by
  unfold mark
  refine ensures_bind ensures_get fun m => ?_
  dsimp only
  split
  · exact ensures_bind ensures_get fun m => quiet_onBoard _
  · exact ensures_pure _

theorem quiet_markRun (i n : Nat) : Ensures Quiet (markRun i n) := by
  induction n generalizing i with
  | zero => exact ensures_pure _
  | succ n ih => exact ensures_bind (quiet_mark i true) fun _ => ih (i + 1)

theorem quiet_setup (image : PhysRange) : Ensures Quiet (setup image) := by
  unfold setup
  refine ensures_bind ensures_get fun m => ?_
  dsimp only
  split
  · exact ensures_pure _
  split
  · exact ensures_pure _
  refine ensures_bind (ensures_check _) fun place => ?_
  split
  · exact ensures_bind (quiet_onBoard _) fun _ => ensures_pure _
  refine ensures_bind (quiet_updateFrames (fun _ => rfl) fun _ => rfl) fun _ => ?_
  refine ensures_bind (quiet_onBoard _) fun _ => ?_
  refine ensures_bind (quiet_markRun ..) fun _ => ensures_bind (quiet_markRun ..) fun _ => ?_
  refine ensures_bind (quiet_updateFrames (fun _ => rfl) fun _ => rfl) fun _ => ?_
  exact ensures_bind (quiet_onBoard _) fun _ => ensures_pure _

theorem quiet_claim : Ensures Quiet claim := by
  unfold claim
  refine ensures_bind ensures_get fun m => ?_
  dsimp only
  split
  · exact ensures_pure _
  refine ensures_bind ensures_get fun m => ?_
  cases m.firstFree with
  | none => exact ensures_pure _
  | some i =>
    refine ensures_bind (quiet_mark i true) fun _ => ?_
    exact ensures_bind (quiet_updateFrames (fun _ => rfl) fun _ => rfl) fun _ => ensures_pure _

theorem quiet_zero (p : PhysAddr) : Ensures Quiet (zero p) :=
  ensures_bind ensures_get fun _ => quiet_onBoard _

theorem quiet_shiftWindow (d : Word) : Ensures Quiet (shiftWindow d) := by
  refine ensures_bind (quiet_updateFrames (fun _ => rfl) fun _ => rfl) fun _ => ?_
  exact ensures_bind ensures_get fun _ => quiet_onBoard _

/-! ## Steps that are -/

/-- A frame that is handed out is remembered; a request that fails is not. -/
theorem recent_of_allocate (h : allocate m = .ok r m') :
    m'.frames.recent = m.frames.recent.pushAll (r.toList.map .alloc) := by
  obtain ⟨p, m₁, hclaim, hrest⟩ := exists_of_run_bind h
  have hquiet := quiet_claim.of_ok hclaim
  cases p with
  | none =>
    cases hrest
    exact hquiet.recent
  | some p =>
    obtain ⟨_, m₂, hzero, hcount⟩ := exists_of_run_bind hrest
    have hquiet' := (quiet_zero p).of_ok hzero
    cases hcount
    show m₂.frames.recent.push (.alloc p) = _
    rw [hquiet'.recent, hquiet.recent]
    rfl

/-- A parked frame that is drawn is not remembered again. -/
theorem recent_of_draw (hwaiting : m.frames.waiting ≠ 0) (h : allocateTable m = .ok r m') :
    m'.frames.recent = m.frames.recent := by
  have hlt : m.frames.drawn < m.frames.parked.size := by
    rw [Frames.waiting] at hwaiting
    omega
  cases (run_allocateTable_next (Array.getElem?_eq_getElem hlt) rfl).symm.trans h
  rfl

theorem allocateTable_eq_allocate (hwaiting : m.frames.waiting = 0) :
    allocateTable m = allocate m := by
  rw [Frames.waiting] at hwaiting
  exact run_allocateTable_empty (Array.getElem?_eq_none (by omega))

/-- A frame that is taken back is remembered. -/
theorem recent_of_release (h : release p m = .ok (.ok ()) m') :
    m'.frames.recent = m.frames.recent.push (.free p) := by
  rw [release, run_bind_ok (run_get m)] at h
  cases hrefusal : m.refusal p with
  | some e =>
    rw [hrefusal] at h
    cases h
  | none =>
    rw [hrefusal] at h
    dsimp only at h
    rw [run_bind_ok (run_get m)] at h
    obtain ⟨_, m₁, hmark, hrest⟩ := exists_of_run_bind h
    have hquiet := (quiet_mark _ _).of_ok hmark
    cases hrest
    show m₁.frames.recent.push (.free p) = _
    rw [hquiet.recent]

/-- A frame that is refused is not. -/
theorem recent_of_refused {e : FrameError} (h : release p m = .ok (.error e) m') :
    m'.frames.recent = m.frames.recent := by
  rcases refusal_of_release h with ⟨hok, -⟩ | ⟨e', -, hrefusal, -⟩
  · cases hok
  · rw [run_release_refused hrefusal] at h
    cases h
    rfl

/-- The frames that are parked are put behind the others, and remembered in that order. -/
theorem recent_of_parkUpTo (h : parkUpTo n m = .ok k m') : ∃ ps : List PhysAddr, ps.length = k ∧
    m'.frames.parked.toList = m.frames.parked.toList ++ ps ∧
    m'.frames.recent = m.frames.recent.pushAll (ps.map .alloc) := by
  induction n generalizing m k with
  | zero =>
    cases h
    exact ⟨[], rfl, (List.append_nil _).symm, rfl⟩
  | succ n ih =>
    rw [parkUpTo, run_bind_ok (run_get m)] at h
    by_cases hroom : m.frames.parked.size < parkLimit
    · rw [if_pos hroom] at h
      obtain ⟨p, m₁, hclaim, hrest⟩ := exists_of_run_bind h
      have hquiet := quiet_claim.of_ok hclaim
      cases p with
      | none =>
        cases hrest
        refine ⟨[], rfl, ?_, hquiet.recent⟩
        rw [hquiet.parked, List.append_nil]
      | some p =>
        -- The frame is remembered first and put with the parked ones after that.
        obtain ⟨_, m₂, hcount, hrest⟩ := exists_of_run_bind hrest
        cases hcount
        obtain ⟨_, m₃, hpush, hrest⟩ := exists_of_run_bind hrest
        cases hpush
        obtain ⟨k', m₄, hpark, hdone⟩ := exists_of_run_bind hrest
        cases hdone
        obtain ⟨ps, hlen, hparked, hrecent⟩ := ih hpark
        refine ⟨p :: ps, by rw [List.length_cons, hlen], ?_, ?_⟩
        · rw [hparked]
          show (m₁.frames.parked.push p).toList ++ ps = _
          rw [Array.toList_push, hquiet.parked, List.append_assoc, List.singleton_append]
        · rw [hrecent]
          show (m₁.frames.recent.push (.alloc p)).pushAll (ps.map .alloc) = _
          rw [hquiet.recent]
          rfl
    · rw [if_neg hroom] at h
      cases h
      exact ⟨[], rfl, (List.append_nil _).symm, rfl⟩

theorem recent_of_park (h : park n m = .ok k m') : ∃ ps : List PhysAddr, ps.length = k ∧
    m'.frames.parked.toList = m.frames.parked.toList ++ ps ∧
    m'.frames.recent = m.frames.recent.pushAll (ps.map .alloc) := by
  obtain ⟨k', m₁, hpark, -⟩ := exists_of_run_bind h
  obtain ⟨l, text, hrun⟩ := run_park hpark
  have hparked := recent_of_parkUpTo hpark
  cases hrun.symm.trans h
  exact hparked

/-! ## Histories -/

/-- One thing that happens to the store, with the allocations, frames parked and frames taken back
that it consists of, in their order. -/
inductive Deed : Memory → List FrameEvent → Memory → Prop where
  | setup {m m' : Memory} {image : PhysRange} {r : Except FrameError Unit} :
      Memory.setup image m = .ok r m' → Deed m [] m'
  /-- A frame is allocated, or there is none. -/
  | allocate {m m' : Memory} {r : Option PhysAddr} :
      Memory.allocate m = .ok r m' → Deed m (r.toList.map .alloc) m'
  /-- A frame is taken back. -/
  | release {m m' : Memory} {p : PhysAddr} :
      Memory.release p m = .ok (.ok ()) m' → Deed m [.free p] m'
  /-- It is refused. -/
  | refuse {m m' : Memory} {p : PhysAddr} {e : FrameError} :
      Memory.release p m = .ok (.error e) m' → Deed m [] m'
  /-- The frames `ps` are parked. -/
  | park {m m' : Memory} {n k : Nat} {ps : List PhysAddr} : Memory.park n m = .ok k m' →
      m'.frames.parked.toList = m.frames.parked.toList ++ ps → Deed m (ps.map .alloc) m'
  /-- A parked frame is drawn. -/
  | draw {m m' : Memory} {r : Option PhysAddr} :
      m.frames.waiting ≠ 0 → allocateTable m = .ok r m' → Deed m [] m'
  /-- No frame is parked, and another one is allocated for a table, or there is none. -/
  | fallBack {m m' : Memory} {r : Option PhysAddr} :
      m.frames.waiting = 0 → allocateTable m = .ok r m' → Deed m (r.toList.map .alloc) m'
  | shift {m m' : Memory} {d : Word} : shiftWindow d m = .ok () m' → Deed m [] m'
  /-- Anything happens on the board. -/
  | elsewhere {m : Memory} (board : Board) : Deed m [] { m with board := board }

/-- The states of a store, with all events since it was made, the oldest first. -/
inductive Told : List FrameEvent → Memory → Prop where
  | made {board : Board} {region : PhysRange} {window : Window} :
      Told [] ⟨board, { region := region, window := window }⟩
  | deed {es es' : List FrameEvent} {m m' : Memory} :
      Told es m → Deed m es' m' → Told (es ++ es') m'

/-- What happens is remembered as it happens. -/
theorem Deed.recent (h : Deed m es m') : m'.frames.recent = m.frames.recent.pushAll es := by
  cases h with
  | setup hrun => exact ((quiet_setup _).of_ok hrun).recent
  | allocate hrun => exact recent_of_allocate hrun
  | release hrun => exact recent_of_release hrun
  | refuse hrun => exact recent_of_refused hrun
  | park hrun hparked =>
    obtain ⟨ps, -, hparked', hrecent⟩ := recent_of_park hrun
    rw [hparked'] at hparked
    rw [hrecent, List.append_cancel_left hparked]
  | draw hwaiting hrun => exact recent_of_draw hwaiting hrun
  | fallBack hwaiting hrun =>
    rw [allocateTable_eq_allocate hwaiting] at hrun
    exact recent_of_allocate hrun
  | shift hrun => exact ((quiet_shiftWindow _).of_ok hrun).recent
  | elsewhere board => rfl

/-- Parking is a deed, with one event for every frame it answers for. -/
theorem exists_deed_park (h : Memory.park n m = .ok k m') :
    ∃ ps : List PhysAddr, ps.length = k ∧ Deed m (ps.map .alloc) m' := by
  obtain ⟨ps, hlen, hparked, -⟩ := recent_of_park h
  exact ⟨ps, hlen, .park h hparked⟩

theorem Told.recalls (h : Told es m) : m.frames.recent.Recalls es.reverse := by
  induction h with
  | made => exact Ring.recalls_empty (by decide)
  | deed _ hdeed ih =>
    rw [hdeed.recent, List.reverse_append]
    exact ih.pushAll _

/-! ## The mapper -/

/-- The later state is one of the same history. -/
def Continues (m m' : Memory) : Prop := ∀ es, Told es m → ∃ es', Told (es ++ es') m'

instance : Std.Refl Continues := ⟨fun m es h => ⟨[], by rwa [List.append_nil]⟩⟩

instance : IsTrans Memory Continues := by
  refine ⟨fun m m' m'' h h' es hes => ?_⟩
  obtain ⟨es', hes'⟩ := h es hes
  obtain ⟨es'', hes''⟩ := h' _ hes'
  exact ⟨es' ++ es'', by rwa [← List.append_assoc]⟩

theorem Deed.continues (h : Deed m es m') : Continues m m' := fun _ hes => ⟨es, hes.deed h⟩

theorem continues_onBoard (x : BoardM α) : Ensures Continues (liftM x : MemoryM α) := by
  refine ⟨fun hrun => ?_⟩
  obtain ⟨b, -, rfl⟩ := exists_of_onBoard hrun
  exact (Deed.elsewhere b).continues

theorem continues_allocateTable : Ensures Continues allocateTable := by
  refine ⟨@fun m r m' hrun => ?_⟩
  by_cases hwaiting : m.frames.waiting = 0
  · exact (Deed.fallBack hwaiting hrun).continues
  · exact (Deed.draw hwaiting hrun).continues

/-- A range that is mapped goes on with the history: it takes its tables from the store, one after
the other, and does the rest on the board. -/
theorem continues_mapRange (root : PhysAddr) (start stop : VirtAddr) (p : PhysAddr) (f : Flags) :
    Ensures Continues (Tables.mapRange root start stop p f).run :=
  Tables.ensures_mapRange continues_onBoard continues_allocateTable root start stop p f

/-! ## All together -/

/-- What the store remembers after the events `es`, and by what it is not changed. Ranges that are
mapped add to the history by what they take from the store. -/
structure Recollects (m : Memory) (es : List FrameEvent) : Prop where
  /-- The newest events come first, and there are as many as the ring has slots. -/
  newest : m.frames.recent.toList = es.reverse.take recentLimit
  length : m.frames.recent.toList.length = min recentLimit es.length
  refused : ∀ p e m', release p m = .ok (.error e) m' →
    m'.frames.recent.toList = m.frames.recent.toList
  failed : ∀ m', allocate m = .ok none m' → m'.frames.recent.toList = m.frames.recent.toList
  failedTable : ∀ m', allocateTable m = .ok none m' →
    m'.frames.recent.toList = m.frames.recent.toList
  drawn : ∀ r m', m.frames.waiting ≠ 0 → allocateTable m = .ok r m' →
    m'.frames.recent.toList = m.frames.recent.toList
  mapper : ∀ root start stop p f r m', (Tables.mapRange root start stop p f).run m = .ok r m' →
    ∃ es', Told (es ++ es') m'

/-- At every moment of its life the store remembers the newest events. -/
theorem Told.recollects (h : Told es m) : Recollects m es := by
  have hnewest := h.recalls.toList_eq
  constructor
  case newest => exact hnewest
  case length => rw [hnewest, List.length_take, List.length_reverse]
  case refused =>
    intro p e m' hrun
    rw [recent_of_refused hrun]
  case failed =>
    intro m' hrun
    rw [recent_of_allocate hrun]
    rfl
  case failedTable =>
    intro m' hrun
    by_cases hwaiting : m.frames.waiting = 0
    · rw [allocateTable_eq_allocate hwaiting] at hrun
      rw [recent_of_allocate hrun]
      rfl
    · rw [recent_of_draw hwaiting hrun]
  case drawn =>
    intro r m' hwaiting hrun
    rw [recent_of_draw hwaiting hrun]
  case mapper =>
    intro root start stop p f r m' hrun
    exact (continues_mapRange root start stop p f).of_ok hrun es h

/-- Forty frames are parked in the small store, and it remembers thirty-two of them. -/
theorem Told.recollects_sample : ∃ es m, Told es m ∧ es.length = 40 ∧
    m.frames.recent.toList.length = 32 ∧ Recollects m es := by
  obtain ⟨m₀, hsetup, hset, hfree, -, -⟩ := setUp_sample
  have hlive : Live m₀ := ((Live.unstarted unset_sample.unstarted).setup hsetup).live
  have hmade : Told [] sample := .made
  obtain ⟨k, m, hpark, -, hk⟩ := hlive.park 40
  obtain ⟨ps, hlen, hdeed⟩ := exists_deed_park hpark
  have htold := (hmade.deed (.setup hsetup)).deed hdeed
  have hrecollects := htold.recollects
  have hlimit : parkLimit = 128 := rfl
  have hparked : m₀.frames.parked.size = 0 := by rw [hset.parked]; rfl
  have hcount : (([] ++ []) ++ ps.map FrameEvent.alloc).length = 40 := by
    rw [List.nil_append, List.nil_append, List.length_map]
    omega
  have hring := hrecollects.length
  rw [hcount] at hring
  exact ⟨_, m, htold, hcount, hring, hrecollects⟩

end Memory

end HighHalf
