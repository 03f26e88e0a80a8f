import HighHalf.Frames.Summary
import HighHalf.Proofs.Frames.Lifetime
import HighHalf.Proofs.Frames.Overhang
import HighHalf.Proofs.Relocation.Pointers

/-!
# One step through two windows

The same RAM can be reached through more than one window. Here a step is made twice, once through
each of two windows, from memories that are otherwise the same. As long as it touches nothing but
RAM it comes to the same answer, leaves the same frame store and the same bytes, and appends the
same records to the log. The events that it appends to the trace are the same as well, except that
every address at which RAM is reached is as much higher as the window is.

## Main definitions

* `Event.moved`: an event with the addresses at which RAM is reached shifted
* `Memory.Twin`: two memories that differ in the window and in what happened before
* `Memory.Follows`: what two memories have become by the same step through two windows
* `Memory.Alike`: two ways in which a step ends that are the same but for the window
-/

namespace HighHalf

/-! ## Addresses -/

/-- How much higher everything is reached through `w'` than through `w`. -/
def Window.lead (w w' : Window) : Word := w'.offset - w.offset

theorem Window.reach_lead (w w' : Window) (p : PhysAddr) :
    w'.reach p = w.reach p + w.lead w' := by
  simp only [reach, lead]
  grind

/-- The store whose place is reached `d` bytes higher. -/
def Store.moved (d : Word) : Store → Store
  | .byte a v => .byte (a + d) v
  | .word a v => .word (a + d) v
  | .clear a n => .clear (a + d) n

/-- The event with the places of RAM reached `d` bytes higher: those that are stored to, and those
whose cache lines are cleaned. -/
def Event.moved (d : Word) : Event → Event
  | .store s => .store (s.moved d)
  | .clean a => .clean (a + d)
  | e => e

namespace Ram

variable {r : Ram} {w w' : Window} {p : PhysAddr} {n : Nat}

theorem Shows.setByte_reach (hw : r.Shows w) (hw' : r.Shows w') (hp : r.Has p.num 1) (v : UInt8) :
    r.setByte (w'.reach p) v = r.setByte (w.reach p) v := by
  rw [setByte, setByte, hw'.offset_reach p hp, hw.offset_reach p hp]

theorem Shows.setLittle_reach (hw : r.Shows w) (hw' : r.Shows w') (hp : r.Has p.num n) (v : Word) :
    r.setLittle (w'.reach p) n v = r.setLittle (w.reach p) n v := by
  induction n generalizing r p v with
  | zero => rfl
  | succ n ih =>
    have hone : r.Has p.num 1 := hp.mono (Nat.le_refl _) (by omega)
    have hsame := sameBank_setByte r (w.reach p) v.toUInt8
    rw [setLittle, setLittle, hw.setByte_reach hw' hone, reach_succ, reach_succ]
    cases n with
    | zero => rfl
    | succ n =>
      have hup : (p.up 1).num = p.num + 1 := hp.num_up hw.top (by omega)
      refine ih (hsame.shows hw) (hsame.shows hw') (hsame.has.2 ?_) _
      rw [hup]
      exact hp.mono (by omega) (by omega)

theorem Shows.setWord_reach (hw : r.Shows w) (hw' : r.Shows w') (hp : r.Has p.num 8) (v : Word) :
    r.setWord (w'.reach p) v = r.setWord (w.reach p) v :=
  hw.setLittle_reach hw' hp v

theorem Shows.clear_reach (hw : r.Shows w) (hw' : r.Shows w') (hp : r.Has p.num n) :
    r.clear (w'.reach p) n = r.clear (w.reach p) n := by
  rcases Nat.eq_zero_or_pos n with rfl | hn
  · simp only [clear, zeroRun_zero]
  · have hone : r.Has p.num 1 := hp.mono (Nat.le_refl _) (by omega)
    rw [clear, clear, hw'.offset_reach p hone, hw.offset_reach p hone]

end Ram

/-- The frame store through another window. -/
def Frames.through (f : Frames) (w : Window) : Frames := { f with window := w }

namespace Memory

/-! ## Twins -/

/-- The two memories differ in the window, through which both show the same RAM, and in what
happened before. -/
structure Twin (m m' : Memory) : Prop where
  frames : m'.frames = m.frames.through m'.frames.window
  ram : m'.board.ram = m.board.ram
  cpu : m'.board.cpu = m.board.cpu
  console : m'.board.console = m.board.console
  shows : m.board.ram.Shows m.frames.window
  shows' : m.board.ram.Shows m'.frames.window

/-- How much higher RAM is reached in `m'` than in `m`. -/
def lead (m m' : Memory) : Word := m.frames.window.lead m'.frames.window

/-- From the twins `o` and `o'` the same step has led to the twins `m` and `m'`: the windows are
those of before, the same events happened at places that are as far apart as the windows are, and
the same was logged. -/
structure Follows (o o' m m' : Memory) : Prop extends Twin m m' where
  window : m.frames.window = o.frames.window
  window' : m'.frames.window = o'.frames.window
  trace : ∃ es, m.board.trace.toList = o.board.trace.toList ++ es ∧
    m'.board.trace.toList = o'.board.trace.toList ++ es.map (·.moved (o.lead o'))
  log : ∃ rs, m.board.log.toList = o.board.log.toList ++ rs ∧
    m'.board.log.toList = o'.board.log.toList ++ rs

variable {o o' m m' n n' : Memory} {p q t : PhysAddr} {i j k : Nat} {b b' : Board}

theorem Twin.refl (h : m.board.ram.Shows m.frames.window) : Twin m m := ⟨rfl, rfl, rfl, rfl, h, h⟩

theorem Twin.follows (h : Twin m m') : Follows m m' m m' where
  toTwin := h
  window := rfl
  window' := rfl
  trace := ⟨[], (List.append_nil _).symm, (List.append_nil _).symm⟩
  log := ⟨[], (List.append_nil _).symm, (List.append_nil _).symm⟩

theorem Follows.lead_eq (h : Follows o o' m m') : m.lead m' = o.lead o' := by
  rw [lead, lead, h.window, h.window']

/-! ## What is read -/

section Fields

variable (h : Twin m m')

include h

theorem Twin.region : m'.frames.region = m.frames.region := by
  rw [h.frames]
  rfl

theorem Twin.bitmap : m'.frames.bitmap = m.frames.bitmap := by
  rw [h.frames]
  rfl

theorem Twin.bitmapSize : m'.frames.bitmapSize = m.frames.bitmapSize := by
  rw [h.frames]
  rfl

theorem Twin.total : m'.frames.total = m.frames.total := by
  rw [h.frames]
  rfl

theorem Twin.ready : m'.frames.ready = m.frames.ready := by
  rw [h.frames]
  rfl

theorem Twin.indexOf (p : PhysAddr) : m'.frames.indexOf p = m.frames.indexOf p := by
  rw [h.frames]
  rfl

end Fields

theorem Twin.bitmapInside (h : Twin m m') (hin : BitmapInside m) : BitmapInside m' := by
  refine ⟨by rw [h.ram]; exact h.shows', ?_⟩
  rw [h.ram, h.frames]
  exact hin.has

theorem Twin.cell (h : Twin m m') (k : Nat) : m'.cell k = m.cell k := by
  rw [Memory.cell, Memory.cell, h.ram]

theorem Twin.bitmapByte (h : Twin m m') (hin : BitmapInside m) (hi : i < m.frames.bitmapSize) :
    m'.bitmapByte i = m.bitmapByte i := by
  have hi' : i < m'.frames.bitmapSize := by rwa [h.bitmapSize]
  rw [bitmapByte_eq hin hi, bitmapByte_eq (h.bitmapInside hin) hi', h.bitmap, h.cell]

theorem Twin.marked (h : Twin m m') (hin : BitmapInside m) (i : Nat) :
    m'.marked i = m.marked i :=
  marked_congr hin (h.bitmapInside hin) h.bitmap h.bitmapSize (fun k _ => h.cell k) i

theorem Twin.firstFree (h : Twin m m') (hin : BitmapInside m) : m'.firstFree = m.firstFree := by
  rw [Memory.firstFree, Memory.firstFree, h.total, h.bitmapSize]
  exact firstClear_congr _ _ _ fun j _ hj => h.bitmapByte hin (by omega)

theorem Twin.isUsed (h : Twin m m') (hin : m.frames.ready = true → BitmapInside m) (p : PhysAddr) :
    m'.isUsed p = m.isUsed p := by
  cases hm : m.frames.ready with
  | false => rw [isUsed_of_unready hm, isUsed_of_unready (h.ready.trans hm)]
  | true => exact isUsed_congr h.ready h.region (h.marked (hin hm)) p

theorem Twin.refusal (h : Twin m m') (hin : m.frames.ready = true → BitmapInside m)
    (p : PhysAddr) : m'.refusal p = m.refusal p := by
  cases hm : m.frames.ready with
  | false =>
    rw [Memory.refusal, Memory.refusal, h.ready, hm]
    rfl
  | true =>
    rw [Memory.refusal, Memory.refusal, h.marked (hin hm), h.frames]
    rfl

/-! ## What is changed -/

/-- What a step on the board has to show. -/
theorem Follows.board (h : Follows o o' m m') (hram : b'.ram = b.ram) (hcpu : b'.cpu = b.cpu)
    (hconsole : b'.console = b.console) (hbank : Ram.SameBank m.board.ram b.ram)
    (htrace : ∃ es, b.trace.toList = m.board.trace.toList ++ es ∧
      b'.trace.toList = m'.board.trace.toList ++ es.map (·.moved (m.lead m')))
    (hlog : ∃ rs, b.log.toList = m.board.log.toList ++ rs ∧
      b'.log.toList = m'.board.log.toList ++ rs) :
    Follows o o' { m with board := b } { m' with board := b' } where
  frames := h.frames
  ram := hram
  cpu := hcpu
  console := hconsole
  shows := hbank.shows h.shows
  shows' := hbank.shows h.shows'
  window := h.window
  window' := h.window'
  trace := by
    obtain ⟨es, hes, hes'⟩ := h.trace
    obtain ⟨fs, hfs, hfs'⟩ := htrace
    refine ⟨es ++ fs, by rw [hfs, hes, List.append_assoc], ?_⟩
    rw [hfs', hes', h.lead_eq, List.map_append, List.append_assoc]
  log := by
    obtain ⟨rs, hrs, hrs'⟩ := h.log
    obtain ⟨qs, hqs, hqs'⟩ := hlog
    exact ⟨rs ++ qs, by rw [hqs, hrs, List.append_assoc], by rw [hqs', hrs', List.append_assoc]⟩

theorem Follows.stored (h : Follows o o' m m') (s : Store)
    (hram : (s.moved (m.lead m')).apply m.board.ram = s.apply m.board.ram) :
    Follows o o' (m.stored s) (m'.stored (s.moved (m.lead m'))) := by
  refine h.board ?_ h.cpu h.console (s.sameBank_apply _) ⟨[.store s], ?_, ?_⟩ ⟨[], ?_, ?_⟩
  · rw [Board.stored, Board.stored, h.ram]
    exact hram
  · exact Array.toList_push
  · exact Array.toList_push
  · exact (List.append_nil _).symm
  · exact (List.append_nil _).symm

/-- A byte of RAM is stored. -/
theorem Follows.byte (h : Follows o o' m m') (hp : m.board.ram.Has p.num 1) (v : UInt8) :
    Follows o o' (m.stored (.byte (m.frames.window.reach p) v))
      (m'.stored (.byte (m'.frames.window.reach p) v)) := by
  have hreach := Window.reach_lead m.frames.window m'.frames.window p
  have hset := h.shows.setByte_reach h.shows' hp v
  rw [hreach] at hset ⊢
  exact h.stored (.byte (m.frames.window.reach p) v) hset

/-- Bytes of RAM are zeroed. -/
theorem Follows.clear (h : Follows o o' m m') {k : Nat} (hp : m.board.ram.Has p.num k) :
    Follows o o' (m.stored (.clear (m.frames.window.reach p) k))
      (m'.stored (.clear (m'.frames.window.reach p) k)) := by
  have hreach := Window.reach_lead m.frames.window m'.frames.window p
  have hset := h.shows.clear_reach h.shows' hp
  rw [hreach] at hset ⊢
  exact h.stored (.clear (m.frames.window.reach p) k) hset

theorem Follows.noted (h : Follows o o' m m') (l : Level) (c : Component) (text : String) :
    Follows o o' (m.noted l c text) (m'.noted l c text) := by
  refine h.board h.ram h.cpu h.console (Ram.SameBank.refl _) ⟨[], ?_, ?_⟩
    ⟨[⟨l, c, text⟩], Array.toList_push, Array.toList_push⟩
  · exact (List.append_nil _).symm
  · exact (List.append_nil _).symm

/-- The frame store is changed, and what becomes of it does not hang on the window. -/
theorem Follows.framed (h : Follows o o' m m') (g : Frames → Frames)
    (hg : ∀ f w, g (f.through w) = (g f).through w)
    (hwindow : ∀ f, (g f).window = f.window) :
    Follows o o' { m with frames := g m.frames } { m' with frames := g m'.frames } where
  frames := by
    show g m'.frames = (g m.frames).through (g m'.frames).window
    rw [hwindow, ← hg, ← h.frames]
  ram := h.ram
  cpu := h.cpu
  console := h.console
  shows := by rw [hwindow]; exact h.shows
  shows' := by rw [hwindow]; exact h.shows'
  window := (hwindow _).trans h.window
  window' := (hwindow _).trans h.window'
  trace := h.trace
  log := h.log

/-! ## How a step ends -/

variable {α β : Type} {Q R : α → Memory → Prop} {S : β → Memory → Prop}
  {x y : EStateM.Result Fatal Memory α}

/-- Both ways to make a step from the twins `o` and `o'` return the same, with `Q`, or both stop for
the same reason. -/
inductive Alike (o o' : Memory) (Q : α → Memory → Prop) :
    EStateM.Result Fatal Memory α → EStateM.Result Fatal Memory α → Prop where
  | ok {a : α} {m m' : Memory} : Follows o o' m m' → Q a m → Alike o o' Q (.ok a m) (.ok a m')
  | stop {e : Fatal} {m m' : Memory} : Follows o o' m m' → Alike o o' Q (.error e m) (.error e m')

theorem Alike.mono (h : Alike o o' Q x y) (hQ : ∀ a n, x = .ok a n → Q a n → R a n) :
    Alike o o' R x y := by
  cases h with
  | ok hn ha => exact .ok hn (hQ _ _ rfl ha)
  | stop hn => exact .stop hn

/-- What is known of one of the two holds of both. -/
theorem Alike.exists_of_ok {a : α} (h : Alike o o' Q x y) (hx : x = .ok a n) :
    ∃ n', y = .ok a n' ∧ Follows o o' n n' ∧ Q a n := by
  cases h with
  | ok hn ha =>
    cases hx
    exact ⟨_, rfl, hn, ha⟩
  | stop hn => cases hx

theorem Alike.bind {x y : MemoryM α} {f g : α → MemoryM β} (hx : Alike o o' Q (x m) (y m'))
    (hf : ∀ a n n', Follows o o' n n' → Q a n → Alike o o' S (f a n) (g a n')) :
    Alike o o' S ((x >>= f) m) ((y >>= g) m') := by
  rw [run_bind, run_bind]
  generalize x m = r at hx
  generalize y m' = r' at hx
  cases hx with
  | ok hn ha => exact hf _ _ _ hn ha
  | stop hn => exact .stop hn

/-! ## The bitmap -/

theorem alike_mark (h : Follows o o' m m') (hin : BitmapInside m) (i : Nat) (used : Bool) :
    Alike o o' (fun _ n => BitmapInside n ∧ n.frames = m.frames) (mark i used m)
      (mark i used m') := by
  have hsame : Alike o o' (fun _ _ => True) (mark i used m) (mark i used m') := by
    rw [run_mark, run_mark, h.bitmapSize]
    by_cases hi : i / 8 < m.frames.bitmapSize
    · obtain ⟨hplace, hnum, hhas⟩ := hin.place hi
      have hplace' := ((h.bitmapInside hin).place (i := i / 8) (by rwa [h.bitmapSize])).1
      rw [if_pos hi, if_pos hi, hplace, hplace', h.bitmap, h.bitmapByte hin hi]
      refine .ok (h.byte ?_ _) trivial
      rw [hnum]
      exact hhas
    · rw [if_neg hi, if_neg hi]
      exact .ok h trivial
  refine hsame.mono fun _ n hrun _ => ?_
  obtain ⟨n₁, hrun₁, hmarks⟩ := mark_spec hin i used
  cases hrun.symm.trans hrun₁
  exact ⟨hin.congr hmarks.frames hmarks.bank, hmarks.frames⟩

theorem alike_markRun (h : Follows o o' m m') (hin : BitmapInside m) (i k : Nat) :
    Alike o o' (fun _ n => BitmapInside n ∧ n.frames = m.frames) (markRun i k m)
      (markRun i k m') := by
  induction k generalizing m m' i with
  | zero => exact .ok h ⟨hin, rfl⟩
  | succ k ih =>
    refine (alike_mark h hin i true).bind fun _ n n' hn hpost => ?_
    refine (ih hn hpost.1 (i + 1)).mono fun _ n₁ _ hpost₁ => ?_
    exact ⟨hpost₁.1, hpost₁.2.trans hpost.2⟩

/-! ## Requests to the frame store -/

/-- A store that has not been set up, over a range that begins with a page. If there is anything in
the range, it lies in RAM. -/
structure Poised (m : Memory) : Prop where
  ready : m.frames.ready = false
  parked : m.frames.parked = #[]
  drawn : m.frames.drawn = 0
  start_aligned : m.frames.region.start.num % 4096 = 0
  shows : m.board.ram.Shows m.frames.window
  inside : m.frames.region.start.num < m.frames.region.stop.num →
    m.board.ram.Has m.frames.region.start.num
      (m.frames.region.stop.num - m.frames.region.start.num)

/-- Whatever the store touches lies in RAM: it has not been set up, or it is usable. -/
inductive Housed (m : Memory) : Prop where
  | poised : Poised m → Housed m
  | usable : Usable m → Housed m

theorem Housed.bitmapInside (h : Housed m) (hready : m.frames.ready = true) :
    BitmapInside m := by
  cases h with
  | poised h => exact absurd (h.ready.symm.trans hready) Bool.false_ne_true
  | usable h => exact h.bitmapInside

/-- Where no frame is claimed nothing changes. -/
theorem Housed.claim_cases (h : Housed m) : claim m = .ok none m ∨
    ∃ i n, claim m = .ok (some (m.frames.addrOf i)) n ∧ Usable m ∧ Claims m n i := by
  cases h with
  | poised h => exact Or.inl (claim_of_unready h.ready)
  | usable h =>
    rcases Memory.claim_cases h.plan h.bitmapInside with ⟨hrun, -⟩ | ⟨i, n, hrun, hclaims⟩
    · exact Or.inl hrun
    · exact Or.inr ⟨i, n, hrun, h, hclaims⟩

theorem alike_claim (h : Follows o o' m m') (hm : Housed m) :
    Alike o o' (fun _ _ => True) (claim m) (claim m') := by
  cases hm with
  | poised hm =>
    rw [claim_of_unready hm.ready, claim_of_unready (h.ready.trans hm.ready)]
    exact .ok h trivial
  | usable hm =>
    have hfree : m'.frames.free = m.frames.free := by rw [h.frames]; rfl
    have haddr : ∀ i, m'.frames.addrOf i = m.frames.addrOf i := fun i => by rw [h.frames]; rfl
    unfold claim
    rw [run_bind_ok (run_get m), run_bind_ok (run_get m'), h.ready, hfree]
    split
    · exact .ok h trivial
    · rw [run_bind_ok (run_get m), run_bind_ok (run_get m'), h.firstFree hm.bitmapInside]
      cases m.firstFree with
      | none => exact .ok h trivial
      | some i =>
        simp only [haddr]
        refine (alike_mark h hm.bitmapInside i true).bind fun _ n n' hn _ => ?_
        exact .ok (hn.framed (fun f => { f with free := f.free - 1 }) (fun _ _ => rfl)
          fun _ => rfl) trivial

theorem alike_zero (h : Follows o o' m m') (hp : m.board.ram.Has p.num 4096) :
    Alike o o' (fun _ _ => True) (zero p m) (zero p m') :=
  .ok (h.clear hp) trivial

theorem Follows.counted (h : Follows o o' m m') (p : PhysAddr) :
    Follows o o' { m with frames := m.frames.counted p }
      { m' with frames := m'.frames.counted p } :=
  h.framed (·.counted p) (fun _ _ => rfl) fun _ => rfl

/-- The store after a request for a frame that was not met. -/
def short (m : Memory) : Memory :=
  Memory.noted { m with frames := m.frames.shortOf } .warn .frames
    s!"out of physical frames ({m.frames.shortOf.stats.failed} failed requests so far)"

theorem Follows.short (h : Follows o o' m m') : Follows o o' m.short m'.short := by
  have hfailed : m'.frames.shortOf.stats.failed = m.frames.shortOf.stats.failed := by
    rw [h.frames]
    rfl
  rw [Memory.short, Memory.short, hfailed]
  exact (h.framed Frames.shortOf (fun _ _ => rfl) fun _ => rfl).noted ..

theorem alike_allocate (h : Follows o o' m m') (hm : Housed m) :
    Alike o o' (fun _ _ => True) (allocate m) (allocate m') := by
  have hclaim : Alike o o' (fun r n => ∀ p, r = some p → n.board.ram.Has p.num 4096) (claim m)
      (claim m') := by
    refine (alike_claim h hm).mono ?_
    rintro r n hrun - p rfl
    rcases hm.claim_cases with hnone | ⟨i, n₁, hsome, hu, hclaims⟩
    · cases hrun.symm.trans hnone
    · cases hrun.symm.trans hsome
      exact (hclaims.usable hu).has (hclaims.plan.manages.2
        (Frames.manages_addrOf hu.plan (hclaims.reserved_le hu) hclaims.below))
  refine hclaim.bind fun r n n' hn hr => ?_
  cases r with
  | none =>
    show Alike o o' _ (.ok none n.short) (.ok none n'.short)
    exact .ok hn.short trivial
  | some p =>
    refine (alike_zero hn (hr p rfl)).bind fun _ n₁ n₁' hn₁ _ => ?_
    exact .ok (hn₁.counted p) trivial

/-- The parked frame that is drawn next lies in RAM. -/
theorem Housed.has_next (h : Housed m) (hp : m.frames.parked[m.frames.drawn]? = some p) :
    m.board.ram.Has p.num 4096 := by
  cases h with
  | poised h =>
    rw [h.parked] at hp
    cases hp
  | usable h =>
    have hhead : m.frames.pool.head? = some p := by
      rw [Frames.pool, List.head?_drop, Array.getElem?_toList, hp]
    exact h.has (h.pool_managed p (List.mem_of_head? hhead))

theorem alike_allocateTable (h : Follows o o' m m') (hm : Housed m) :
    Alike o o' (fun _ _ => True) (allocateTable m) (allocateTable m') := by
  have hparked : m'.frames.parked = m.frames.parked := by rw [h.frames]; rfl
  have hdrawn : m'.frames.drawn = m.frames.drawn := by rw [h.frames]; rfl
  unfold allocateTable
  rw [run_bind_ok (run_get m), run_bind_ok (run_get m')]
  rw [hparked, hdrawn]
  cases hp : m.frames.parked[m.frames.drawn]? with
  | none => exact alike_allocate h hm
  | some p =>
    have hnext := h.framed (fun f => { f with drawn := f.drawn + 1 }) (fun _ _ => rfl) fun _ => rfl
    exact .ok (hnext.clear (hm.has_next hp)) trivial

theorem alike_parkUpTo (h : Follows o o' m m') (hm : Housed m) (k : Nat) :
    Alike o o' (fun _ _ => True) (parkUpTo k m) (parkUpTo k m') := by
  induction k generalizing m m' with
  | zero => exact .ok h trivial
  | succ k ih =>
    have hparked : m'.frames.parked = m.frames.parked := by rw [h.frames]; rfl
    unfold parkUpTo
    rw [run_bind_ok (run_get m), run_bind_ok (run_get m'), hparked]
    split
    · rcases hm.claim_cases with hrun | ⟨i, n, hrun, hu, hclaims⟩
      · obtain ⟨n', hrun', hn, -⟩ := (alike_claim h hm).exists_of_ok hrun
        rw [run_bind_ok hrun, run_bind_ok hrun']
        exact .ok hn trivial
      · obtain ⟨n', hrun', hn, -⟩ := (alike_claim h hm).exists_of_ok hrun
        have hshelved := hn.framed (·.shelved (m.frames.addrOf i)) (fun _ _ => rfl) fun _ => rfl
        rw [run_bind_ok hrun, run_bind_ok hrun']
        exact (ih hshelved (.usable (hclaims.usable_shelved hu))).bind fun _ _ _ hn₁ _ =>
          .ok hn₁ trivial
    · exact .ok h trivial

theorem alike_park (h : Follows o o' m m') (hm : Housed m) (k : Nat) :
    Alike o o' (fun _ _ => True) (park k m) (park k m') := by
  unfold park
  refine (alike_parkUpTo h hm _).bind fun r n n' hn _ => ?_
  split
  · exact .ok (hn.noted ..) trivial
  · exact .ok (hn.noted ..) trivial

theorem ready_of_refusal (h : m.refusal p = none) : m.frames.ready = true := by
  cases hready : m.frames.ready with
  | true => rfl
  | false =>
    rw [refusal, hready] at h
    cases h

theorem alike_release (h : Follows o o' m m') (hm : Housed m) (p : PhysAddr) :
    Alike o o' (fun _ _ => True) (release p m) (release p m') := by
  unfold release
  rw [run_bind_ok (run_get m), run_bind_ok (run_get m'), h.refusal hm.bitmapInside]
  cases hrefusal : m.refusal p with
  | some e => exact .ok (h.noted ..) trivial
  | none =>
    dsimp only
    rw [run_bind_ok (run_get m), run_bind_ok (run_get m'), h.indexOf]
    refine (alike_mark h (hm.bitmapInside (ready_of_refusal hrefusal)) _ false).bind
      fun _ n n' hn _ => ?_
    exact .ok (hn.framed (·.gotBack p) (fun _ _ => rfl) fun _ => rfl) trivial

/-- The picture of the range is the same through both windows. -/
theorem Twin.usageMap (h : Twin m m') (hin : BitmapInside m) : m'.usageMap = m.usageMap := by
  have hstep : mapStep m'.frames = mapStep m.frames := by rw [h.frames]; rfl
  have hcell : m'.mapCell = m.mapCell := by
    funext i
    rw [mapCell, mapCell, h.marked hin, h.frames]
    rfl
  rw [Memory.usageMap, Memory.usageMap, hstep, hcell]

theorem alike_summarize (h : Follows o o' m m') (hm : Housed m) :
    Alike o o' (fun _ n => Keeps m n) (summarize m) (summarize m') := by
  obtain ⟨w, hw⟩ : ∃ w, m'.frames = m.frames.through w := ⟨_, h.frames⟩
  unfold summarize
  rw [run_bind_ok (run_get m), run_bind_ok (run_get m'), hw]
  change Alike o o' _ ((if (!m.frames.ready) = true then _ else _ : MemoryM Unit) m)
    ((if (!m.frames.ready) = true then _ else _ : MemoryM Unit) m')
  cases hready : m.frames.ready with
  | false => exact .ok (h.noted ..) (keeps_noted ..)
  | true =>
    have hin := hm.bitmapInside hready
    refine Alike.bind (Q := fun _ n => BitmapInside n ∧ Keeps m n)
      (.ok (h.noted ..) ⟨⟨hin.shows, hin.has⟩, keeps_noted ..⟩) fun _ n n' hn hpost => ?_
    rw [run_bind_ok (run_get n), run_bind_ok (run_get n'), hn.usageMap hpost.1]
    refine Alike.bind (Q := fun _ n => Keeps m n) (.ok (hn.noted ..) (hpost.2.noted ..))
      fun _ n₁ n₁' hn₁ hkeeps => ?_
    rw [show (m.frames.through w).recent = m.frames.recent from rfl]
    cases m.frames.recent.toList with
    | nil => exact .ok hn₁ hkeeps
    | cons e es => exact .ok (hn₁.noted ..) (hkeeps.noted ..)

/-! ## Setting up -/

/-- An image that begins in the range and does not run backwards has RAM under it. -/
theorem Poised.blank {image : PhysRange} (h : Poised m)
    (henclosed : Enclosed m.frames.region image) : Blank m :=
  ⟨h.ready, h.parked, h.drawn, h.start_aligned, h.shows,
    h.inside (Nat.lt_of_le_of_lt henclosed.low henclosed.high)⟩

/-- The image for which the bitmap is placed fits. -/
theorem Poised.fits {image place : PhysRange} (h : Poised m)
    (hguard : ¬ (!m.frames.region.contains image.start ||
      decide (image.stop.val < image.start.val)) = true)
    (hplace : bitmapPlace image.stop ((m.frameCount + 7) / 8) = .ok place)
    (hroom : ¬ m.frames.region.stop.val < place.stop.val) : Blank m ∧ Fits m image place := by
  have henclosed := enclosed_iff.2 hguard
  rw [UInt64.lt_iff_toNat_lt, Nat.not_lt] at hroom
  exact ⟨h.blank henclosed, henclosed.low, henclosed.high, henclosed.le, hplace, hroom⟩

theorem alike_setup (h : Follows o o' m m') (hm : Housed m) (image : PhysRange) :
    Alike o o' (fun _ _ => True) (setup image m) (setup image m') := by
  cases hm with
  | usable hm =>
    rw [run_setup_again hm.plan.ready, run_setup_again (h.ready.trans hm.plan.ready)]
    exact .ok h trivial
  | poised hm =>
    unfold setup
    rw [run_bind_ok (run_get m), run_bind_ok (run_get m')]
    simp only [hm.ready, h.ready, Bool.false_eq_true, if_false, h.region, h.indexOf, frameCount_eq]
    split
    · exact .ok h trivial
    · rename_i hguard
      cases hplace : bitmapPlace image.stop ((m.frameCount + 7) / 8) with
      | error e => exact .stop h
      | ok place =>
        rw [run_bind_ok (run_check place m), run_bind_ok (run_check place m')]
        split
        · exact .ok (h.noted ..) trivial
        · rename_i hroom
          obtain ⟨hblank, hfits⟩ := hm.fits hguard hplace hroom
          have hin := hfits.bitmapInside hblank
          have hplaced := h.framed (fun f => { f with
            bitmap := place.start, bitmapSize := (m.frameCount + 7) / 8, total := m.frameCount })
            (fun _ _ => rfl) fun _ => rfl
          rw [run_bind_ok (run_updateFrames _ m), run_bind_ok (run_updateFrames _ m'),
            run_bind_ok (run_store _ _), run_bind_ok (run_store _ _)]
          refine (alike_markRun (hplaced.clear (p := place.start) hin.has) ?_ _ _).bind
            fun _ n₂ n₂' hn₂ hin₂ => ?_
          · exact hin.congr rfl (Ram.sameBank_clear ..)
          refine (alike_markRun hn₂ hin₂.1 _ _).bind fun _ n₃ n₃' hn₃ _ => ?_
          have hdone := hn₃.framed (fun f => { f with
            image := m.frames.indexOf place.start, reserved := m.frames.indexOf place.stop,
            free := m.frameCount - m.frames.indexOf place.stop, ready := true })
            (fun _ _ => rfl) fun _ => rfl
          exact .ok (hdone.noted ..) trivial

end Memory

end HighHalf
