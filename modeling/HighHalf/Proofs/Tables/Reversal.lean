import HighHalf.Proofs.Tables.Cost

/-!
# Unmapping a page and mapping it again

Unmapping says which leaf it took away, and the leaf says all that is needed to put it back: its
address and its flags are accepted by the mapper, and together they are the leaf again. The leaf
table is still in place, so mapping the page again needs no frame and leaves RAM as it was before
the page was unmapped.

A page is mapped again through its leaf table, or as a range of one page. A range is given by its
start and the first address behind it. Behind the last page of the high half there is none, and
behind the last page of the low half none that is canonical, so these two pages are mapped again
through their leaf tables only.

## Main definitions

* `Tables.Unmaps`: what unmapping a page changes
* `Tables.Remaps`: how the page is mapped again
-/

namespace HighHalf

namespace Tables

open Memory

variable {m m' : Memory} {root t p : PhysAddr} {roots held : List PhysAddr}
  {start stop v : VirtAddr} {e : Entry} {f : Flags}

/-- The page of `v` has no leaf any more, every other leaf is as it was, and no frame was taken or
given back. -/
structure Unmaps (m m' : Memory) (roots : List PhysAddr) (root : PhysAddr) (v : VirtAddr) :
    Prop where
  frames : m'.frames = m.frames
  gone : ∀ u : VirtAddr, u.Canonical → u.num / 4096 = v.num / 4096 → m'.lookup root u = .empty
  others : ∀ u : VirtAddr, u.Canonical → u.num / 4096 ≠ v.num / 4096 →
    m'.lookup root u = m.lookup root u
  trees : ∀ r ∈ roots, r ≠ root → ∀ u, m'.lookup r u = m.lookup r u

/-- With the address and the flags of `e` the page of `v` is mapped again in `m'`, without a frame,
and RAM is then as in `m`: through its leaf table, or as a range where there is an address behind
the page. -/
structure Remaps (m m' : Memory) (root : PhysAddr) (v : VirtAddr) (e : Entry) : Prop where
  page : ∃ t b, (makeLeafTable root v).run m' = .ok (.ok t) m' ∧
    (Memory.request (mapPage m'.frames.window t v.floor e.addr e.flags)).run m' =
      .ok (.ok ()) { m' with board := b } ∧ b.ram = m.board.ram
  range : ∀ stop : VirtAddr, stop.num = v.floor.num + 4096 →
    ∃ b, (mapRange root v.floor stop e.addr e.flags).run m' =
      .ok (.ok 1) { m' with board := b } ∧ b.ram = m.board.ram

/-! ## One page -/

/-- A range of one page over a leaf table that is there is that page mapped through it. -/
theorem run_mapRange_single (hs : start.Canonical) (hask : Proper start stop p f)
    (hone : stop.num = start.num + 4096) (hr : Reaches m root (start.trail 3) t) {b : Board}
    (hmap : (Memory.request (mapPage m.frames.window t start p f)).run m =
      .ok (.ok ()) { m with board := b }) :
    ∃ b', (mapRange root start stop p f).run m = .ok (.ok 1) { m with board := b' } ∧
      b'.ram = b.ram := by
  have hpages : pagesBetween start stop = 1 := by
    rw [pagesBetween_eq hask.le]
    omega
  have hslot := start.slot_lt 3
  have htables : leafTables start 1 = 1 := by
    rw [leafTables, if_neg (by decide)]
    omega
  have hfirst : (makeLeafTables root start 0 1).run m = .ok (.ok ()) m := by
    refine run_makeLeafTables_of_reaches fun k _ hk => ⟨t, ?_⟩
    rw [show firstPageIn start k = 0 by rw [firstPageIn]; omega, pageOf_zero hs]
    exact hr
  have hframe : (liftM (p.add (UInt64.ofNat (4096 * 0))) : MapM PhysAddr).run m =
      .ok (.ok p) m := by
    rcases run_frameOf hask.frame_aligned 0 m with ⟨hrun, -⟩ | ⟨-, hbig⟩
    · rw [hrun, PhysAddr.up, show UInt64.ofNat (4096 * 0) = 0 from rfl, UInt64.add_zero]
    · have hlt := p.num_lt
      omega
  have hsecond : (writeLeaves root start p f root 0 1).run m =
      .ok (.ok ()) { m with board := b } := by
    have htable : (if 0 = 0 || (pageOf start 0).slot 3 = 0 then makeLeafTable root (pageOf start 0)
        else pure root : MapM PhysAddr).run m = .ok (.ok t) m :=
      run_leafTableOf (by rw [pageOf_zero hs]; exact hr) fun h0 => absurd rfl h0
    rw [writeLeaves_succ, run_bindE_ok htable, run_bindE_ok hframe, run_bindE_ok (run_getE m),
      pageOf_zero hs, run_bindE_ok hmap]
    rfl
  refine ⟨(({ m with board := b } : Memory).noted .trace .tables
    s!"mapped [{start}..{stop}) -> {p} ({pagesBetween start stop} pages)").board, ?_, rfl⟩
  rw [run_mapRange_proper root hask m, hpages, htables]
  exact (run_bindE_ok hfirst).trans ((run_bindE_ok hsecond).trans (run_bindE_ok rfl))

/-- Mapping a page with the address and the flags of the leaf that its entry had stores that leaf
again. -/
theorem run_mapPage_restore {w : Window} {b : Board} {r : Ram} (hv : v.aligned = true)
    (ht : t.aligned = true) (he : (entry r w t (v.slot 3)).isLeaf = true)
    (hb : b.ram = r.setWord (entryPlace w t (v.slot 3)) 0) :
    ∃ b', (mapPage w t v (entry r w t (v.slot 3)).addr (entry r w t (v.slot 3)).flags).run b =
      .ok (.ok ()) b' ∧ b'.ram = r := by
  rcases run_mapPage t v (entry r w t (v.slot 3)).addr (entry r w t (v.slot 3)).flags with
    ⟨-, -, hno⟩ | ⟨-, hrun⟩
  · exact absurd ⟨hv, Entry.aligned_addr _, ht, Entry.complete_flags he⟩ hno
  · have hword : (leafOf (entry r w t (v.slot 3)).addr (entry r w t (v.slot 3)).flags).raw =
        r.word (entryPlace w t (v.slot 3)) := congrArg Entry.raw (Entry.toLeaf_addr_flags _)
    exact ⟨_, hrun .., by rw [Board.ram_installed, hword, hb, Ram.setWord_restore]⟩

/-- The leaf of a page that was taken away is put back. -/
theorem remaps_of_installs (h : Sound m roots held) (hroot : root ∈ roots) (hv : v.Canonical)
    (hr : Reaches m root (v.trail 3) t) (hleaf : (m.entry t (v.slot 3)).isLeaf = true) {b : Board}
    (hin : Installs m { m with board := b } t (v.slot 3) .empty) :
    Remaps m { m with board := b } root v (m.entry t (v.slot 3)) := by
  obtain ⟨hslot, htrail⟩ : v.floor.slot 3 = v.slot 3 ∧ v.floor.trail 3 = v.trail 3 :=
    List.cons.inj (VirtAddr.trail_floor hv)
  have hfloor : v.floor.Canonical := VirtAddr.canonical_ofWord _
  have hnum := VirtAddr.num_floor hv
  have haligned : v.floor.num % 4096 = 0 := by omega
  -- The leaf table is still there.
  obtain ⟨-, hreach, -⟩ := h.leaf hroot hr (v.length_trail 3) (v.slot_lt 3) (Or.inl rfl) hin
  have hr' : Reaches { m with board := b } root (v.trail 3) t := (hreach root hroot _ t).2 hr
  rw [← hslot] at hleaf hin ⊢
  obtain ⟨b', hmap, hram⟩ := run_mapPage_restore ((v.floor.aligned_iff).2 haligned)
    (h.owned root hroot _ t hr).aligned hleaf hin.ram
  have hrequest : (Memory.request (mapPage m.frames.window t v.floor
      (m.entry t (v.floor.slot 3)).addr (m.entry t (v.floor.slot 3)).flags)).run
        { m with board := b } = .ok (.ok ()) { m with board := b' } := run_request hmap
  constructor
  case page => exact ⟨t, b', run_makeLeafTable_of_reaches hr', hrequest, hram⟩
  case range =>
    intro stop hstop
    have hask : Proper v.floor stop (m.entry t (v.floor.slot 3)).addr
        (m.entry t (v.floor.slot 3)).flags :=
      ⟨haligned, by omega, (PhysAddr.aligned_iff _).1 (Entry.aligned_addr _), by omega,
        Entry.complete_flags hleaf⟩
    obtain ⟨b'', hrun, hram'⟩ :=
      run_mapRange_single hfloor hask hstop (by rw [htrail]; exact hr') hrequest
    exact ⟨b'', hrun, hram'.trans hram⟩

/-- Unmapping a page finds no leaf exactly if there is none, and then does nothing. Otherwise it
gives the leaf back that the page had and takes away that leaf alone, and with the address and the
flags of that leaf the page is mapped again as if nothing had happened. -/
theorem unmapPage_reversible (h : Sound m roots held) (hroot : root ∈ roots) (hv : v.Canonical) :
    ((Memory.request (unmapPage m.frames.window root v)).run m = .ok (.error .unmapped) m ↔
      m.lookup root v = .empty) ∧
    (m.lookup root v ≠ .empty → ∃ m',
      (Memory.request (unmapPage m.frames.window root v)).run m =
        .ok (.ok (m.lookup root v)) m' ∧
      Unmaps m m' roots root v ∧ Remaps m m' root v (m.lookup root v)) := by
  rcases unmapPage_cases m root v with ⟨hrun, hnone⟩ | ⟨t, b, hr, hvalid, hrun, hin⟩
  · exact ⟨⟨fun _ => hnone, fun _ => hrun⟩, fun hsome => absurd hnone hsome⟩
  · have hne : m.lookup root v ≠ .empty := by
      intro hnone
      rw [hnone] at hvalid
      cases hvalid
    have hentry : m.lookup root v = m.entry t (v.slot 3) := by
      rw [lookup_of_reaches hr] at hne ⊢
      split at hne
      · rw [if_pos (by assumption)]
      · exact absurd rfl hne
    have hleaf : (m.entry t (v.slot 3)).isLeaf = true := by
      rcases h.outer root hroot _ t hr (v.length_trail 3) _ (v.slot_lt 3) with hempty | hleaf
      · exact absurd (hentry.trans hempty) hne
      · exact hleaf
    obtain ⟨-, hone, -⟩ :=
      oneLeaf_of_installs h hroot hr (v.length_trail 3) (v.slot_lt 3) (Or.inl rfl) hin
    refine ⟨⟨fun hfail => ?_, fun hnone => absurd hnone hne⟩, fun _ => ⟨_, hrun, ?_, ?_⟩⟩
    · rw [hrun] at hfail
      cases hfail
    · refine ⟨rfl, fun u hu hpage => ?_, fun u hu hpage => ?_, fun r hr' hother u => ?_⟩
      · rw [hone root hroot u]
        exact if_pos ⟨rfl, (VirtAddr.trail_four_eq_iff hu hv).2 hpage⟩
      · rw [hone root hroot u]
        exact if_neg fun c => hpage ((VirtAddr.trail_four_eq_iff hu hv).1 c.2)
      · rw [hone r hr' u]
        exact if_neg fun c => hother c.1
    · rw [hentry]
      exact remaps_of_installs h hroot hv hr hleaf hin

/-- Two pages are mapped in the small store; the first is unmapped and mapped again. -/
theorem unmapPage_reversible_sample :
    ∃ m root m', m.lookup root ⟨0x1FF000⟩ = leafOf ⟨0x40010000⟩ .data ∧
      (Memory.request (unmapPage m.frames.window root ⟨0x1FF000⟩)).run m =
        .ok (.ok (leafOf ⟨0x40010000⟩ .data)) m' ∧
      Unmaps m m' [root] root ⟨0x1FF000⟩ ∧
      Remaps m m' root ⟨0x1FF000⟩ (leafOf ⟨0x40010000⟩ .data) ∧
      ∃ b, (mapRange root ⟨0x1FF000⟩ ⟨0x200000⟩ ⟨0x40010000⟩ .data).run m' =
        .ok (.ok 1) { m' with board := b } ∧ b.ram = m.board.ram := by
  have hask : Proper ⟨0x1FF000⟩ ⟨0x201000⟩ ⟨0x40010000⟩ .data :=
    ⟨by decide, by decide, by decide, by decide, by decide, by decide⟩
  obtain ⟨m₀, -, hset, -, hsupply₀, htop⟩ := setUp_sample
  obtain ⟨root, m₁, -, hsound, -, hsupply⟩ :=
    firstRoot_spec hset (by rw [htop]; decide) (by omega)
  have hroot : root ∈ [root] := List.mem_singleton.2 rfl
  have hpages : pagesBetween ⟨0x1FF000⟩ ⟨0x201000⟩ = 2 := by decide
  have hfew := tablesFor_le ⟨0x1FF000⟩ 2
  obtain ⟨m, hrun⟩ := mapRange_succeeds hsound hroot hask (by rw [hpages]; decide)
    (by rw [hpages]; omega)
  obtain ⟨hsound', hleaves⟩ := lookup_of_mapRange hsound hroot (Or.inl (by decide)) hrun
  have hv : VirtAddr.Canonical ⟨0x1FF000⟩ := by
    rw [VirtAddr.Canonical]
    decide
  have hleaf : m.lookup root ⟨0x1FF000⟩ = leafOf ⟨0x40010000⟩ .data := by
    have hfirst := hleaves 0 (by rw [hpages]; decide)
    rw [pageOf_zero hv] at hfirst
    exact hfirst.trans (by decide)
  obtain ⟨m', hgone, hunmaps, hremaps⟩ :=
    (unmapPage_reversible hsound' hroot hv).2 (by rw [hleaf]; decide)
  rw [hleaf] at hgone hremaps
  have hagain := hremaps.range ⟨0x200000⟩ (by decide)
  exact ⟨m, root, m', hleaf, hgone, hunmaps, hremaps, hagain⟩

/-! ## The last page -/

/-- A range that was mapped ends as many pages behind its start as leaves were written. -/
theorem stop_of_mapRange {n : Nat} (h : Sound m roots held) (hroot : root ∈ roots)
    (hrun : (mapRange root start stop p f).run m = .ok (.ok n) m') :
    stop.num = start.num + 4096 * n := by
  have hmapped := mapRange_spec start stop p f h hroot
  rw [hrun] at hmapped
  obtain ⟨-, hask, rfl, -⟩ := hmapped
  have hle := hask.le
  have hstart := hask.start_aligned
  have hstop := hask.stop_aligned
  rw [pagesBetween_eq hle]
  omega

/-- A leaf can be put into the last page of the small store's address space. -/
theorem exists_lastPage : ∃ m root, Sound m [root] [] ∧
    m.lookup root ⟨0xFFFFFFFFFFFFF000⟩ = leafOf ⟨0x40010000⟩ .data := by
  obtain ⟨m₀, -, hset, -, hsupply₀, htop⟩ := setUp_sample
  obtain ⟨root, m₁, -, hsound, -, hsupply⟩ :=
    firstRoot_spec hset (by rw [htop]; decide) (by omega)
  have hroot : root ∈ [root] := List.mem_singleton.2 rfl
  obtain ⟨r, m₂, -, hgrows, -, hmade⟩ := makeLeafTable_spec ⟨0xFFFFFFFFFFFFF000⟩ hsound hroot
  cases r with
  | error e =>
    have hfew := hmade.2.1
    omega
  | ok t =>
    rcases mapPage_spec ⟨0xFFFFFFFFFFFFF000⟩ ⟨0x40010000⟩ .data hgrows.sound hroot hmade.1
        (VirtAddr.length_trail ..) with ⟨_, -, hno⟩ | ⟨-, m₃, -, hgrows', hone, -⟩
    · exact absurd (by decide) hno
    · exact ⟨m₃, root, hgrows'.sound, (hone root hroot _).trans (if_pos ⟨rfl, rfl⟩)⟩

/-- The last page of the address space is unmapped, and then no range is that page. The range up to
the address that follows modulo `2 ^ 64` is refused. -/
theorem lastPage_not_range : ∃ m root e m', Sound m [root] [] ∧
    m.lookup root ⟨0xFFFFFFFFFFFFF000⟩ = e ∧
    (Memory.request (unmapPage m.frames.window root ⟨0xFFFFFFFFFFFFF000⟩)).run m =
      .ok (.ok e) m' ∧
    (∀ stop m'', (mapRange root ⟨0xFFFFFFFFFFFFF000⟩ stop e.addr e.flags).run m' ≠
      .ok (.ok 1) m'') ∧
    (mapRange root ⟨0xFFFFFFFFFFFFF000⟩ (VirtAddr.add ⟨0xFFFFFFFFFFFFF000⟩ 4096) e.addr
      e.flags).run m' = .ok (.error .badRange) m' := by
  obtain ⟨m, root, hsound, hlookup⟩ := exists_lastPage
  have hroot : root ∈ [root] := List.mem_singleton.2 rfl
  rcases unmapPage_spec ⟨0xFFFFFFFFFFFFF000⟩ hsound hroot with
    ⟨-, hnone⟩ | ⟨m', hrun, hgrows, -⟩
  · rw [hlookup] at hnone
    exact absurd hnone (by decide)
  · refine ⟨m, root, _, m', hsound, rfl, hrun, fun stop m'' hmapped => ?_, ?_⟩
    · have hstop := stop_of_mapRange hgrows.sound hroot hmapped
      have htop := stop.num_lt
      have hstart : VirtAddr.num ⟨0xFFFFFFFFFFFFF000⟩ = 2 ^ 64 - 4096 := rfl
      omega
    · rw [hlookup]
      rfl

end Tables

end HighHalf
