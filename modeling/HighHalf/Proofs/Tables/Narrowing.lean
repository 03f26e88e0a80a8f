import HighHalf.Proofs.Tables.Passes

/-!
# Frames that a descriptor has no room for

A descriptor keeps bits 12 to 47 of a frame's address. Of the first frame of a range the mapper
asks only that it is page aligned, and it counts on from there in 64 bits. So where the frames go
past 48 bits the leaves are written all the same, and the pages show the frames whose addresses
are left when the higher bits are dropped. Where the count itself leaves 64 bits the kernel stops,
and by then all pages before that one have been mapped.

## Main definitions

* `Tables.shownFrame`: the frame that a page of a range shows
* `Tables.Shown`: some pages show their frames, and no other leaf has changed
* `Tables.Fate`: what a request for a range comes to, whatever its frames are

## Main results

* `Tables.writeLeaves_stop`: the second pass up to the page whose frame has no address
* `Tables.frames_narrowed`: what comes of a range and of a page, for all aligned frames
-/

namespace HighHalf

namespace Tables

open Memory

variable {m m' : Memory} {root t u p : PhysAddr} {roots held : List PhysAddr}
  {start stop v : VirtAddr} {i j k n c : Nat} {f : Flags}

/-! ## The frame that a page shows -/

/-- The frame that page `k` of a range shows if its frames are counted from `p` on: of the
address, the low 48 bits. -/
def shownFrame (p : PhysAddr) (k : Nat) : PhysAddr :=
  ⟨UInt64.ofNat ((p.num + 4096 * k) % 2 ^ 48)⟩

theorem num_shownFrame (p : PhysAddr) (k : Nat) :
    (shownFrame p k).num = (p.num + 4096 * k) % 2 ^ 48 :=
  UInt64.toNat_ofNat_of_lt' (by show _ < 2 ^ 64; omega)

/-- What a descriptor keeps of the address of a frame. -/
theorem up_and_addressMask (hp : p.num % 4096 = 0) (k : Nat) :
    (p.up (4096 * k)).val &&& Entry.addressMask = (shownFrame p k).val := by
  have hup : (p.up (4096 * k)).val.toNat = (p.num + 4096 * k % 2 ^ 64) % 2 ^ 64 := by
    rw [PhysAddr.up, UInt64.toNat_add, UInt64.toNat_ofNat']
    rfl
  have hshown : (shownFrame p k).val.toNat = _ := num_shownFrame p k
  apply UInt64.toNat_inj.1
  rw [Word.toNat_and_addressMask, hup, hshown]
  omega

theorem leafOf_up (hp : p.num % 4096 = 0) (k : Nat) (f : Flags) :
    leafOf (p.up (4096 * k)) f = ⟨(shownFrame p k).val ||| f.bits⟩ := by
  rw [leafOf, up_and_addressMask hp, Entry.toLeaf]

theorem resolve_shown {w : Window} {r : Ram} (hf : Entry.Complete f) (hp : p.num % 4096 = 0)
    (hlookup : lookup r w root v = leafOf (p.up (4096 * k)) f) :
    resolve r w root v = some ⟨(shownFrame p k).val + v.inPage⟩ := by
  rw [resolve, hlookup, leafOf, Entry.isLeaf_toLeaf hf, if_pos rfl, Entry.addr_toLeaf hf,
    up_and_addressMask hp]

/-- Below `root` the first `n` pages from `start` on show frames counted from `p` on, with the
flags `f`. Every other leaf of every tree is as it was. -/
structure Shown (m m' : Memory) (roots : List PhysAddr) (root : PhysAddr) (start : VirtAddr)
    (p : PhysAddr) (f : Flags) (n : Nat) : Prop where
  leaf : ∀ k < n, lookup m'.board.ram m'.frames.window root
    (start.add (UInt64.ofNat (4096 * k))) = ⟨(shownFrame p k).val ||| f.bits⟩
  byte : ∀ k < n, ∀ b < 4096, resolve m'.board.ram m'.frames.window root
    (start.add (UInt64.ofNat (4096 * k + b))) = some ⟨(shownFrame p k).val + UInt64.ofNat b⟩
  rest : ∀ v : VirtAddr, v.Canonical → ¬ (start.num ≤ v.num ∧ v.num < start.num + 4096 * n) →
    lookup m'.board.ram m'.frames.window root v = lookup m.board.ram m.frames.window root v
  others : ∀ r ∈ roots, r ≠ root → ∀ v : VirtAddr,
    lookup m'.board.ram m'.frames.window r v = lookup m.board.ram m.frames.window r v

/-- Every byte of the first `n` pages from `start` on stands for the byte as far from `p`. -/
def Exact (m : Memory) (root : PhysAddr) (start : VirtAddr) (p : PhysAddr) (n : Nat) : Prop :=
  ∀ k < n, ∀ b < 4096, resolve m.board.ram m.frames.window root
    (start.add (UInt64.ofNat (4096 * k + b))) = some ⟨p.val + UInt64.ofNat (4096 * k + b)⟩

/-- Leaves that are painted for a range inside one half. -/
theorem shown_of_painted (hs : start.num % 4096 = 0) (hp : p.num % 4096 = 0)
    (hf : Entry.Complete f) (hroot : root ∈ roots) (hcovers : Covers start n)
    (hlookup : ∀ r ∈ roots, ∀ v, m'.lookup r v =
      if r = root then painted start p f 0 n (m.lookup r) v else m.lookup r v) :
    Shown m m' roots root start p f n := by
  have hpage : ∀ k < n, ∀ b < 4096,
      m'.lookup root (start.add (UInt64.ofNat (4096 * k + b))) = leafOf (p.up (4096 * k)) f := by
    intro k hk b hb
    rw [hlookup root hroot, if_pos rfl, painted_page hs hcovers hk hb]
  refine ⟨fun k hk => ?_, fun k hk b hb => ?_, fun v hv hout => ?_, fun r hr hne v => ?_⟩
  · rw [← leafOf_up hp]
    exact hpage k hk 0 (by omega)
  · rw [resolve_shown hf hp (hpage k hk b hb), hcovers.inPage_add hs hk hb]
  · have hrest := hlookup root hroot v
    rwa [if_pos rfl, painted_outside hs hcovers hv hout] at hrest
  · have hother := hlookup r hr v
    rwa [if_neg hne] at hother

/-- The frames that are shown are the ones that were asked for exactly if 48 bits are enough. -/
theorem Shown.exact_iff (h : Shown m m' roots root start p f n) (hp : p.num % 4096 = 0)
    (hroom : p.num + 4096 * n ≤ 2 ^ 64) :
    Exact m' root start p n ↔ n = 0 ∨ p.num + 4096 * n ≤ 2 ^ 48 := by
  have hbyte : ∀ k < n, ∀ b < 4096,
      ((shownFrame p k).val + UInt64.ofNat b = p.val + UInt64.ofNat (4096 * k + b) ↔
        p.num + 4096 * k < 2 ^ 48) := by
    intro k hk b hb
    have hnum : p.val.toNat = p.num := rfl
    have hshown : (shownFrame p k).val.toNat = _ := num_shownFrame p k
    have hb' : (UInt64.ofNat b).toNat = b := UInt64.toNat_ofNat_of_lt' (by show b < 2 ^ 64; omega)
    have hoffset : (UInt64.ofNat (4096 * k + b)).toNat = 4096 * k + b :=
      UInt64.toNat_ofNat_of_lt' (by show _ < 2 ^ 64; omega)
    rw [← UInt64.toNat_inj, UInt64.toNat_add, UInt64.toNat_add, hnum, hshown, hb', hoffset]
    omega
  constructor
  · intro hexact
    rcases Nat.eq_zero_or_pos n with hn | hn
    · exact Or.inl hn
    · -- The last page decides.
      have hlast := (h.byte (n - 1) (by omega) 0 (by omega)).symm.trans
        (hexact (n - 1) (by omega) 0 (by omega))
      rw [Option.some.injEq, PhysAddr.mk.injEq, hbyte (n - 1) (by omega) 0 (by omega)] at hlast
      omega
  · intro hsmall k hk b hb
    rw [h.byte k hk b hb, (hbyte k hk b hb).2 (by omega)]

/-! ## Where the count of frames leaves 64 bits -/

/-- Page `c` has no frame, since its address would be past 64 bits. -/
theorem run_frameOf_stop (hc : p.num + 4096 * c = 2 ^ 64) (hlt : 4096 * c < 2 ^ 64)
    (m : Memory) :
    (liftM (p.add (UInt64.ofNat (4096 * c))) : MapM PhysAddr).run m = .error .addOverflow m := by
  rcases frameOf_spec p c with hframe | ⟨hframe, -⟩
  · have hnum := PhysAddr.num_add hframe
    have htop := (p.up (4096 * c)).num_lt
    rw [UInt64.toNat_ofNat_of_lt' hlt] at hnum
    omega
  · rw [hframe]
    rfl

/-- The second pass stops at the page whose frame has no address; the pages before it have been
written by then. -/
theorem writeLeaves_stop (h : Sound m roots held) (hroot : root ∈ roots)
    (hs : start.num % 4096 = 0) (hp : p.num % 4096 = 0) (hf : Entry.Complete f)
    (hc : p.num + 4096 * c = 2 ^ 64) (hlt : 4096 * c < 2 ^ 64) (hlo : i ≤ c) (hhi : c < i + n)
    (htables : ∀ k, i ≤ k → k < i + n → ∃ u, Reaches m root ((pageOf start k).trail 3) u)
    (ht : i ≠ 0 → Reaches m root ((pageOf start (i - 1)).trail 3) t) :
    ∃ m', (writeLeaves root start p f t i n).run m = .error .addOverflow m' ∧
      ∀ r ∈ roots, ∀ v, m'.lookup r v =
        if r = root then painted start p f i (c - i) (m.lookup r) v else m.lookup r v := by
  induction n generalizing m i t with
  | zero => omega
  | succ n ih =>
    obtain ⟨u, hu⟩ := htables i (Nat.le_refl i) (by omega)
    rw [writeLeaves_succ, run_bindE_ok (run_leafTableOf hu ht)]
    rcases Nat.eq_or_lt_of_le hlo with rfl | hlo
    · refine ⟨m, run_bindE_stop (run_frameOf_stop hc hlt m), fun r _ v => ?_⟩
      rw [Nat.sub_self, painted, ite_self]
    · rcases run_frameOf hp i m with ⟨hframe, hup⟩ | ⟨-, hbig⟩
      · rw [run_bindE_ok hframe, run_bindE_ok (run_getE m)]
        obtain ⟨e, -, hno⟩ | ⟨-, m₁, hrun₁, hgrows, hone, -⟩ := mapPage_spec
          (pageOf start i) (p.up (4096 * i)) f h hroot hu (VirtAddr.length_trail _ 3)
        · exact absurd ⟨aligned_pageOf hs i, hup, hf⟩ hno
        · rw [run_bindE_ok hrun₁]
          obtain ⟨m', hrun, hlookup⟩ := ih (i := i + 1) hgrows.sound (by omega) (by omega)
            (fun k hlo' hhi' => by
              obtain ⟨u', hu'⟩ := htables k (by omega) (by omega)
              exact ⟨u', hgrows.reaches root hroot _ u' hu'⟩)
            fun _ => hgrows.reaches root hroot _ u hu
          refine ⟨m', hrun, fun r hr v => ?_⟩
          rw [hlookup r hr v, show c - i = c - (i + 1) + 1 by omega, painted]
          -- The leaf of this page is painted before those of the pages after it.
          by_cases hr' : r = root
          · rw [if_pos hr', if_pos hr']
            congr 1
            funext u'
            rw [hone r hr u', hr']
            simp only [true_and]
            rfl
          · rw [if_neg hr', if_neg hr', hone r hr v, if_neg fun h => hr' h.1]
      · omega

/-! ## What comes of a request -/

/-- What a request for `n` pages with frames from `p` on comes to, by the state that is left. -/
def Fate (m : Memory) (roots : List PhysAddr) (root : PhysAddr) (start : VirtAddr) (p : PhysAddr)
    (f : Flags) (n : Nat) : EStateM.Result Fatal Memory (Except MapError Nat) → Prop
  -- All pages are mapped, to what 48 bits keep of the frames.
  | .ok (.ok pages) m' => pages = n ∧ p.num + 4096 * n ≤ 2 ^ 64 ∧
      Shown m m' roots root start p f n ∧
      (Exact m' root start p n ↔ n = 0 ∨ p.num + 4096 * n ≤ 2 ^ 48)
  -- There was no frame for a table, and no leaf has changed.
  | .ok (.error e) m' => e = .outOfFrames ∧ ∀ r ∈ roots, ∀ v : VirtAddr,
      lookup m'.board.ram m'.frames.window r v = lookup m.board.ram m.frames.window r v
  -- The pages before the first one without a frame are mapped.
  | .error e m' => e = .addOverflow ∧ 2 ^ 64 < p.num + 4096 * n ∧
      Shown m m' roots root start p f ((2 ^ 64 - p.num) / 4096)

theorem fate_of_mapRange (h : Sound m roots held) (hroot : root ∈ roots)
    (hask : Proper start stop p f) (hcovers : Covers start n)
    (hlen : stop.num = start.num + 4096 * n) :
    Fate m roots root start p f n ((mapRange root start stop p f).run m) := by
  have hpages : pagesBetween start stop = n := by
    rw [pagesBetween_eq hask.le]
    omega
  have hpa := hask.frame_aligned
  have hlt := p.num_lt
  have hn : 4096 * n < 2 ^ 64 := by
    rcases hcovers with hlow | hhigh <;> omega
  have hspec := mapRange_spec start stop p f h hroot
  obtain ⟨r₁, m₁, hfirst, hgrows₁, hsame₁, hmade⟩ :=
    makeLeafTables_spec start 0 (leafTables start n) h hroot
  rw [run_mapRange_proper root hask m, hpages] at hspec ⊢
  rcases r₁ with e | _
  · rw [run_bindE_fail hfirst]
    exact ⟨hmade.1, hsame₁⟩
  · rw [run_bindE_ok hfirst] at hspec ⊢
    have htables : ∀ k, 0 ≤ k → k < 0 + n → ∃ u, Reaches m₁ root ((pageOf start k).trail 3) u :=
      fun k _ hk => reaches_of_firstPass h hroot hfirst (by omega)
    have hnone : 0 ≠ 0 → Reaches m₁ root ((pageOf start (0 - 1)).trail 3) root :=
      fun h0 => absurd rfl h0
    by_cases hroom : p.num + 4096 * n ≤ 2 ^ 64
    · obtain ⟨m₂, hsecond, -⟩ := writeLeaves_total hgrows₁.sound hroot hask.start_aligned
        hpa hask.flags (by omega) htables hnone
      rw [show _ = _ from (run_bindE_ok hsecond).trans (run_bindE_ok rfl)] at hspec ⊢
      obtain ⟨-, -, -, -, hlookup⟩ := hspec
      have hshown := shown_of_painted hask.start_aligned hpa hask.flags hroot hcovers hlookup
      exact ⟨rfl, hroom, hshown, hshown.exact_iff hpa hroom⟩
    · have hcut : p.num + 4096 * ((2 ^ 64 - p.num) / 4096) = 2 ^ 64 := by omega
      obtain ⟨m₂, hsecond, hlookup⟩ := writeLeaves_stop hgrows₁.sound hroot hask.start_aligned
        hpa hask.flags hcut (by omega) (Nat.zero_le _) (by omega) htables hnone
      rw [run_bindE_stop hsecond]
      refine ⟨rfl, by omega, shown_of_painted hask.start_aligned hpa hask.flags hroot ?_ ?_⟩
      · rcases hcovers with hlow | hhigh
        · exact Or.inl (by omega)
        · exact Or.inr (by omega)
      · -- The first pass has not changed a leaf.
        intro r hr v
        have hkept : m₁.lookup r = m.lookup r := funext (hsame₁ r hr)
        rw [hlookup r hr v, hkept, Nat.sub_zero]

/-- A page is written through its leaf table, to what 48 bits keep of its frame. -/
theorem shown_of_mapPage (h : Sound m roots held) (hroot : root ∈ roots) (hv : v.Canonical)
    (hr : Reaches m root (v.trail 3) t) (hva : v.num % 4096 = 0) (hpa : p.num % 4096 = 0)
    (hf : Entry.Complete f) :
    ∃ m', (Memory.request (mapPage m.frames.window t v p f)).run m = .ok (.ok ()) m' ∧
      Shown m m' roots root v p f 1 ∧ (Exact m' root v p 1 ↔ p.num < 2 ^ 48) := by
  obtain ⟨e, -, hno⟩ | ⟨-, m', hrun, -, hone, -⟩ :=
    mapPage_spec v p f h hroot hr (VirtAddr.length_trail v 3)
  · exact absurd ⟨(v.aligned_iff).2 hva, (p.aligned_iff).2 hpa, hf⟩ hno
  have hcovers : Covers v 1 := by
    have hlt := v.num_lt
    rcases (v.canonical_iff).1 hv with hlow | hhigh
    · exact Or.inl (by omega)
    · exact Or.inr (by omega)
  have hlt := p.num_lt
  have hshown : Shown m m' roots root v p f 1 := by
    refine shown_of_painted hva hpa hf hroot hcovers fun r hr' u => ?_
    have hpage : pageOf v 0 = v := by
      refine VirtAddr.num_inj ?_
      rw [hcovers.num_pageOf (by omega)]
      omega
    have hframe : p.up (4096 * 0) = p := by
      refine PhysAddr.num_inj ?_
      rw [PhysAddr.num_up (by omega)]
      omega
    rw [hone r hr' u, painted, painted, hpage, hframe]
    by_cases hroot' : r = root
    · rw [if_pos hroot']
      simp only [hroot', true_and]
      rfl
    · rw [if_neg hroot', if_neg fun h => hroot' h.1]
  refine ⟨m', hrun, hshown, ?_⟩
  rw [hshown.exact_iff hpa (by omega)]
  omega

/-- What becomes of the frames of a range, and of the frame of a page, whatever aligned addresses
they have. A descriptor keeps the low 48 bits, so what is mapped shows the frames asked for
exactly if all of them have addresses of 48 bits. Nothing is refused on that account. -/
theorem frames_narrowed (h : Sound m roots held) (hroot : root ∈ roots) :
    (∀ start stop p f, Proper start stop p f → start.Canonical → stop.Canonical →
      start.high = stop.high →
      Fate m roots root start p f ((stop.num - start.num) / 4096)
        ((mapRange root start stop p f).run m)) ∧
    ∀ v t p f, v.Canonical → Reaches m root (v.trail 3) t → v.num % 4096 = 0 →
      p.num % 4096 = 0 → Entry.Complete f →
      ∃ m', (Memory.request (mapPage m.frames.window t v p f)).run m = .ok (.ok ()) m' ∧
        Shown m m' roots root v p f 1 ∧ (Exact m' root v p 1 ↔ p.num < 2 ^ 48) := by
  refine ⟨fun start stop p f hask hstart hstop hhalf => ?_, fun v t p f hv hr hva hpa hf =>
    shown_of_mapPage h hroot hv hr hva hpa hf⟩
  have hle := hask.le
  have hsa := hask.start_aligned
  have hso := hask.stop_aligned
  have hlen : stop.num = start.num + 4096 * ((stop.num - start.num) / 4096) := by omega
  exact fate_of_mapRange h hroot hask (covers_of_half hstart hstop hhalf hlen) hlen

/-- Two pages of the small store, of which the second is to show the first frame past 48 bits,
and then the first page once more, to show that frame itself: both come to show frame 0. -/
theorem frames_narrowed_sample :
    ∃ m₀ root t m₁ m₂ m₃, Memory.setup sampleImage sample = .ok (.ok ()) m₀ ∧
      allocateTable m₀ = .ok (some root) m₁ ∧
      (mapRange root ⟨0x1FF000⟩ ⟨0x201000⟩ ⟨0xFFFFFFFFF000⟩ .data).run m₁ = .ok (.ok 2) m₂ ∧
      resolve m₂.board.ram m₂.frames.window root ⟨0x1FF000⟩ = some ⟨0xFFFFFFFFF000⟩ ∧
      resolve m₂.board.ram m₂.frames.window root ⟨0x200000⟩ = some ⟨0⟩ ∧
      (Memory.request (mapPage m₂.frames.window t ⟨0x1FF000⟩ ⟨0x1000000000000⟩ .data)).run m₂ =
        .ok (.ok ()) m₃ ∧
      resolve m₃.board.ram m₃.frames.window root ⟨0x1FF000⟩ = some ⟨0⟩ := by
  obtain ⟨m₀, hsetup, hset, -, hsupply₀, htop⟩ := setUp_sample
  obtain ⟨root, m₁, halloc, hsound, -, hsupply⟩ :=
    firstRoot_spec hset (by rw [htop]; decide) (by omega)
  have hroot : root ∈ [root] := List.mem_singleton.2 rfl
  have hask : Proper ⟨0x1FF000⟩ ⟨0x201000⟩ ⟨0xFFFFFFFFF000⟩ .data :=
    ⟨by decide, by decide, by decide, by decide, by decide, by decide⟩
  have hpages : pagesBetween ⟨0x1FF000⟩ ⟨0x201000⟩ = 2 := by decide
  have hfew := tablesFor_le ⟨0x1FF000⟩ 2
  obtain ⟨m₂, hrun⟩ := mapRange_succeeds hsound hroot hask (by rw [hpages]; decide)
    (by rw [hpages]; omega)
  rw [hpages] at hrun
  have hspec := mapRange_spec ⟨0x1FF000⟩ ⟨0x201000⟩ ⟨0xFFFFFFFFF000⟩ .data hsound hroot
  have hfate := (frames_narrowed hsound hroot).1 ⟨0x1FF000⟩ ⟨0x201000⟩ ⟨0xFFFFFFFFF000⟩ .data hask
    (by rw [VirtAddr.Canonical]; decide) (by rw [VirtAddr.Canonical]; decide) (by decide)
  rw [hrun] at hspec hfate
  obtain ⟨hgrows, -⟩ := hspec
  obtain ⟨-, -, hshown, -⟩ := hfate
  -- The first page is mapped, so it has a leaf table.
  have hleaf : m₂.lookup root ⟨0x1FF000⟩ = _ := hshown.leaf 0 (by decide)
  obtain ⟨t, ht⟩ : ∃ t, Reaches m₂ root ((⟨0x1FF000⟩ : VirtAddr).trail 3) t := by
    by_contra hno
    rw [lookup_of_not_reaches fun t ht => hno ⟨t, ht⟩] at hleaf
    exact absurd hleaf (by decide)
  obtain ⟨m₃, hpage, hshown₃, -⟩ := (frames_narrowed hgrows.sound hroot).2 ⟨0x1FF000⟩ t
    ⟨0x1000000000000⟩ .data (by rw [VirtAddr.Canonical]; decide) ht (by decide) (by decide)
    (by decide)
  exact ⟨m₀, root, t, m₁, m₂, m₃, hsetup, halloc, hrun, hshown.byte 0 (by decide) 0 (by decide),
    hshown.byte 1 (by decide) 0 (by decide), hpage, hshown₃.byte 0 (by decide) 0 (by decide)⟩

end Tables

end HighHalf
