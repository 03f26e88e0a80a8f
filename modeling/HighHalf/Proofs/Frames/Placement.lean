import HighHalf.Proofs.Frames.Setup

/-!
# Where the bitmap goes

The bitmap goes to the first page boundary behind the image, and the store is set up only if the
last page of the bitmap still ends inside the managed range. Both roundings and the length of the
bitmap are added up in 64 bits, and a sum that leaves them is fatal. An image that ends that close
to the end of the address space therefore stops the kernel, although its bitmap lies outside the
range and would have to be refused. For every other image the answer is the one of exact arithmetic.

## Main definitions

* `Memory.bitmapTop`: where the last page of the bitmap ends
* `Memory.Placed`: what setting up leaves
* `Memory.Placement`: the answer for every image
-/

namespace HighHalf

namespace Memory

variable {m m' : Memory} {image place : PhysRange} {stop p : PhysAddr} {bytes : Nat}

/-! ## The place of the bitmap -/

/-- Where the last page of the bitmap ends, in exact arithmetic: `bytes` bytes from the first page
boundary behind `stop` on, and the rest of the page. -/
def bitmapTop (stop bytes : Nat) : Nat :=
  ((stop + 4095) / 4096 * 4096 + bytes + 4095) / 4096 * 4096

/-- The place of the bitmap is found unless its last page ends past the last address. -/
theorem bitmapPlace_cases (stop : PhysAddr) (hbytes : bytes < 2 ^ 64) :
    (2 ^ 64 ≤ bitmapTop stop.num bytes ∧ bitmapPlace stop bytes = .error .addOverflow) ∨
      ∃ place, bitmapPlace stop bytes = .ok place ∧
        place.start.num = (stop.num + 4095) / 4096 * 4096 ∧
        place.stop.num = bitmapTop stop.num bytes := by
  have htop : bitmapTop stop.num bytes =
      ((stop.num + 4095) / 4096 * 4096 + bytes + 4095) / 4096 * 4096 := rfl
  have hword : (UInt64.ofNat bytes).toNat = bytes := UInt64.toNat_ofNat_of_lt' hbytes
  by_cases hstart : stop.num + 4095 < 2 ^ 64
  · obtain ⟨start, hceil⟩ := PhysAddr.exists_ceil hstart
    have hnum := PhysAddr.num_ceil hceil
    by_cases hsum : start.num + bytes < 2 ^ 64
    · have hadd := PhysAddr.add_of_lt (p := start) (n := UInt64.ofNat bytes) (by omega)
      have hnum' := PhysAddr.num_add hadd
      by_cases hlast : start.num + bytes + 4095 < 2 ^ 64
      · obtain ⟨last, hceil'⟩ := PhysAddr.exists_ceil
          (p := ⟨start.val + UInt64.ofNat bytes⟩) (by omega)
        have hplace : bitmapPlace stop bytes = .ok ⟨start, last⟩ := by
          simp only [bitmapPlace, hceil, hadd, hceil', bind, Except.bind, pure, Except.pure]
        obtain ⟨h₁, h₂⟩ := bitmapPlace_spec hbytes hplace
        exact Or.inr ⟨⟨start, last⟩, hplace, h₁, by rw [h₂, h₁, htop]⟩
      · refine Or.inl ⟨by omega, ?_⟩
        simp only [bitmapPlace, hceil, hadd, bind, Except.bind,
          PhysAddr.ceil_of_le (p := ⟨start.val + UInt64.ofNat bytes⟩) (by omega)]
    · refine Or.inl ⟨by omega, ?_⟩
      simp only [bitmapPlace, hceil, bind, Except.bind,
        PhysAddr.add_of_le (p := start) (n := UInt64.ofNat bytes) (by omega)]
  · refine Or.inl ⟨by omega, ?_⟩
    simp only [bitmapPlace, bind, Except.bind, PhysAddr.ceil_of_le (Nat.not_lt.1 hstart)]

/-! ## Every image -/

/-- The image begins inside the range and does not run backwards. -/
structure Enclosed (region image : PhysRange) : Prop where
  low : region.start.num ≤ image.start.num
  high : image.start.num < region.stop.num
  le : image.start.num ≤ image.stop.num

/-- The store `m'` is `m` set up around the image, with the bitmap on the first page boundary behind
it. -/
structure Placed (m m' : Memory) (image : PhysRange) : Prop where
  ready : m'.frames.ready = true
  region : m'.frames.region = m.frames.region
  window : m'.frames.window = m.frames.window
  start : m'.frames.bitmap.num = (image.stop.num + 4095) / 4096 * 4096
  behind : image.stop.num ≤ m'.frames.bitmap.num
  size : m'.frames.bitmapSize = (m.frameCount + 7) / 8
  inside : m'.frames.bitmap.num + m'.frames.bitmapSize ≤ m.frames.region.stop.num
  reserved : m.frames.region.start.num + 4096 * m'.frames.reserved =
    bitmapTop image.stop.num m'.frames.bitmapSize
  count : m'.frames.free + m'.frames.reserved = m.frameCount
  /-- A frame that begins before the end of the bitmap is used. -/
  used : ∀ p : PhysAddr, p.num % 4096 = 0 → m.frames.region.start.num ≤ p.num →
    p.num < m'.frames.bitmap.num + m'.frames.bitmapSize → m'.isUsed p = true
  /-- Every whole frame behind it is free. -/
  free : ∀ p : PhysAddr, p.num % 4096 = 0 →
    m'.frames.bitmap.num + m'.frames.bitmapSize ≤ p.num →
    p.num + 4096 ≤ m.frames.region.stop.num → m'.isUsed p = false
  bank : Ram.SameBank m.board.ram m'.board.ram
  cells : ∀ n, m.board.ram.base.num ≤ n → ¬ m'.InBitmap n → m'.cell n = m.cell n

/-- What the store answers to an image, and what it leaves. -/
structure Placement (m : Memory) (image : PhysRange) : Prop where
  outside : ¬ Enclosed m.frames.region image → setup image m = .ok (.error .imageOutside) m
  placed : Enclosed m.frames.region image →
    bitmapTop image.stop.num ((m.frameCount + 7) / 8) ≤ m.frames.region.stop.num →
    ∃ m', setup image m = .ok (.ok ()) m' ∧ Placed m m' image
  refused : Enclosed m.frames.region image →
    m.frames.region.stop.num < bitmapTop image.stop.num ((m.frameCount + 7) / 8) →
    bitmapTop image.stop.num ((m.frameCount + 7) / 8) < 2 ^ 64 →
    ∃ text, setup image m = .ok (.error .bitmapOutside) (m.noted .warn .frames text)
  /-- Here the sum leaves 64 bits, and what should be refused is fatal. -/
  stopped : Enclosed m.frames.region image →
    2 ^ 64 ≤ bitmapTop image.stop.num ((m.frameCount + 7) / 8) →
    m.frames.region.stop.num < bitmapTop image.stop.num ((m.frameCount + 7) / 8) ∧
      setup image m = .error .addOverflow m

theorem enclosed_iff {region : PhysRange} : Enclosed region image ↔
    ¬ (!region.contains image.start || image.stop.val < image.start.val : Bool) = true := by
  rw [Bool.or_eq_true, Bool.not_eq_true', decide_eq_true_eq, not_or, Bool.not_eq_false,
    PhysRange.contains_iff, UInt64.lt_iff_toNat_lt, Nat.not_lt]
  exact ⟨fun h => ⟨⟨h.low, h.high⟩, h.le⟩, fun h => ⟨h.1.1, h.1.2, h.2⟩⟩

theorem frameCount_lt (m : Memory) : (m.frameCount + 7) / 8 < 2 ^ 64 := by
  have hstop := m.frames.region.stop.num_lt
  rw [frameCount]
  omega

theorem run_setup_outside (hready : m.frames.ready = false)
    (h : ¬ Enclosed m.frames.region image) : setup image m = .ok (.error .imageOutside) m := by
  rw [enclosed_iff, not_not] at h
  rw [setup, run_bind_ok (run_get m), hready, if_neg Bool.false_ne_true, if_pos h]
  rfl

/-- The place is computed once the image was accepted. -/
theorem run_setup_stopped {e : Fatal} (hready : m.frames.ready = false)
    (h : Enclosed m.frames.region image)
    (hplace : bitmapPlace image.stop ((m.frameCount + 7) / 8) = .error e) :
    setup image m = .error e m := by
  rw [enclosed_iff] at h
  rw [setup, run_bind_ok (run_get m), hready, if_neg Bool.false_ne_true, if_neg h]
  dsimp only
  rw [frameCount_eq, hplace]
  rfl

theorem run_setup_refused (hready : m.frames.ready = false)
    (h : Enclosed m.frames.region image)
    (hplace : bitmapPlace image.stop ((m.frameCount + 7) / 8) = .ok place)
    (hroom : m.frames.region.stop.num < place.stop.num) :
    ∃ text, setup image m = .ok (.error .bitmapOutside) (m.noted .warn .frames text) := by
  rw [enclosed_iff] at h
  constructor
  rw [setup, run_bind_ok (run_get m), hready, if_neg Bool.false_ne_true, if_neg h]
  dsimp only
  rw [frameCount_eq, hplace, run_bind_ok (run_check place m),
    if_pos (UInt64.lt_iff_toNat_lt.2 hroom)]
  exact run_bind_ok (run_note ..)

/-- Where a whole page begins inside the range, the mark of its frame says whether it is used. -/
theorem isUsed_eq_marked (hready : m.frames.ready = true) (hlow : m.frames.region.start.num ≤ p.num)
    (hhigh : p.num < m.frames.region.stop.num) : m.isUsed p = m.marked (m.frames.indexOf p) := by
  have hcontains : m.frames.region.contains p = true :=
    (m.frames.region.contains_iff p).2 ⟨hlow, hhigh⟩
  rw [isUsed, hready, hcontains]
  rfl

/-- Where the frames before `stop` and those behind the last one are marked, they are the used ones.
-/
theorem isUsed_iff_of_marked (hready : m'.frames.ready = true)
    (hregion : m'.frames.region = m.frames.region)
    (hmarked : ∀ j, m'.marked j = true ↔ j < m.frames.indexOf stop ∨ m.frameCount ≤ j)
    (hlow : m.frames.region.start.num ≤ p.num) (hhigh : p.num < m.frames.region.stop.num) :
    m'.isUsed p = true ↔
      m.frames.indexOf p < m.frames.indexOf stop ∨ m.frameCount ≤ m.frames.indexOf p := by
  have hindex : m'.frames.indexOf p = m.frames.indexOf p := by
    rw [Frames.indexOf, Frames.indexOf, hregion]
  rw [isUsed_eq_marked hready (by rw [hregion]; exact hlow) (by rw [hregion]; exact hhigh), hindex,
    hmarked]

/-- A store around an image that fits has its bitmap behind the image. -/
theorem placed_of_fits (h : Blank m) (hf : Fits m image place) :
    ∃ m', setup image m = .ok (.ok ()) m' ∧ Placed m m' image := by
  obtain ⟨m₂, m₃, hrun₂, hrun₃, hbits⟩ := clearAndMark_spec h hf
  obtain ⟨text, hrun⟩ := run_setup h hf hrun₂ hrun₃ hbits.frames
  obtain ⟨hcount, hroom, hstart, hlast, hindex⟩ := located_of_fits h hf
  have hset := setup_spec h hrun
  have hbelow := hf.below
  have hlow := hf.low
  have hle := hf.le
  have haligned := h.start_aligned
  obtain ⟨m', hm'⟩ : ∃ m', m' = (m.finished m₃ place).noted .info .frames text := ⟨_, rfl⟩
  rw [← hm'] at hrun hset
  have hmarked : ∀ j, m'.marked j = true ↔ j < m.frames.indexOf place.stop ∨ m.frameCount ≤ j := by
    intro j
    rw [hm', (keeps_noted ..).marked]
    exact hbits.marked_finished j
  have hready : m'.frames.ready = true := by rw [hm']; rfl
  have hregion := hset.region
  have hbitmap : m'.frames.bitmap = place.start := by rw [hm']; rfl
  have hsize : m'.frames.bitmapSize = (m.frameCount + 7) / 8 := by rw [hm']; rfl
  refine ⟨m', hrun, ?_⟩
  constructor
  case ready => exact hready
  case region => exact hregion
  case window => exact hset.window
  case start => rw [hbitmap, hstart]
  case behind => exact hset.image_high
  case size => exact hsize
  case inside =>
    rw [hbitmap, hsize]
    omega
  case reserved => exact hset.reserved
  case count =>
    rw [hset.free, hm']
    rfl
  case used =>
    intro p hp hfrom hto
    rw [hbitmap, hsize] at hto
    have hindexp := m.frames.indexOf_eq hfrom
    rw [isUsed_iff_of_marked hready hregion hmarked hfrom (by omega)]
    exact Or.inl (by omega)
  case free =>
    intro p hp hfrom hto
    rw [hbitmap, hsize] at hfrom
    have hindexp := m.frames.indexOf_eq (p := p) (by omega)
    have hindexs := m.frames.indexOf_eq (p := place.stop) (by omega)
    have hframes : m.frameCount =
        (m.frames.region.stop.num - m.frames.region.start.num) / 4096 := rfl
    rw [← Bool.not_eq_true, isUsed_iff_of_marked hready hregion hmarked (by omega) (by omega)]
    omega
  case bank => exact hset.bank
  case cells => exact hset.cells

/-- A store that has not been set up answers every image. Where the image is not in the range,
nothing is asked of the RAM under the range. -/
theorem placement_of_blank (hready : m.frames.ready = false)
    (hblank : Enclosed m.frames.region image → Blank m) : Placement m image := by
  have hstop := m.frames.region.stop.num_lt
  have hplaces := bitmapPlace_cases image.stop m.frameCount_lt
  constructor
  case outside => exact run_setup_outside hready
  case placed =>
    intro henclosed htop
    rcases hplaces with ⟨hbig, -⟩ | ⟨place, hplace, -, hlast⟩
    · omega
    · exact placed_of_fits (hblank henclosed)
        ⟨henclosed.low, henclosed.high, henclosed.le, hplace, by rw [hlast]; exact htop⟩
  case refused =>
    intro henclosed htop hlt
    rcases hplaces with ⟨hbig, -⟩ | ⟨place, hplace, -, hlast⟩
    · omega
    · exact run_setup_refused hready henclosed hplace (by rw [hlast]; exact htop)
  case stopped =>
    intro henclosed hbig
    refine ⟨by omega, ?_⟩
    rcases hplaces with ⟨-, hplace⟩ | ⟨place, -, -, hlast⟩
    · exact run_setup_stopped hready henclosed hplace
    · have hlt := place.stop.num_lt
      omega

/-- Setting up is refused or stops, with store and RAM as they are, or it succeeds. -/
theorem setup_cases_of_blank (hready : m.frames.ready = false)
    (hblank : Enclosed m.frames.region image → Blank m) :
    (∃ e m', setup image m = .ok (.error e) m' ∧ m'.frames = m.frames ∧
        m'.board.ram = m.board.ram) ∨
      setup image m = .error .addOverflow m ∨
        ∃ m', setup image m = .ok (.ok ()) m' ∧ SetUp m m' image := by
  have hall := placement_of_blank hready hblank
  by_cases henclosed : Enclosed m.frames.region image
  · by_cases hroom : bitmapTop image.stop.num ((m.frameCount + 7) / 8) ≤ m.frames.region.stop.num
    · obtain ⟨m', hrun, -⟩ := hall.placed henclosed hroom
      exact Or.inr (Or.inr ⟨m', hrun, setup_spec (hblank henclosed) hrun⟩)
    · by_cases hbig : bitmapTop image.stop.num ((m.frameCount + 7) / 8) < 2 ^ 64
      · obtain ⟨text, hrun⟩ := hall.refused henclosed (Nat.not_le.1 hroom) hbig
        exact Or.inl ⟨_, _, hrun, rfl, rfl⟩
      · exact Or.inr (Or.inl (hall.stopped henclosed (Nat.not_lt.1 hbig)).2)
  · exact Or.inl ⟨_, _, hall.outside henclosed, rfl, rfl⟩

/-- A new store over a range that begins with a page answers every image. -/
theorem setup_placement {board : Board} {region : PhysRange} {window : Window}
    (haligned : region.start.num % 4096 = 0) (hshows : board.ram.Shows window)
    (hinside : region.start.num ≤ region.stop.num →
      board.ram.Has region.start.num (region.stop.num - region.start.num)) (image : PhysRange) :
    Placement ⟨board, { region := region, window := window }⟩ image := by
  refine placement_of_blank rfl fun henclosed => ?_
  have hle : region.start.num ≤ region.stop.num :=
    Nat.le_of_lt (Nat.lt_of_le_of_lt henclosed.low henclosed.high)
  exact ⟨rfl, rfl, rfl, haligned, hshows, hinside hle⟩

/-- The small store is set up around its first four pages. With an image that ends at the last
address it stops. -/
theorem setup_placement_sample :
    (∃ m, setup sampleImage sample = .ok (.ok ()) m ∧ Placed sample m sampleImage) ∧
      sample.frames.region.stop.num < bitmapTop (2 ^ 64 - 1) 8 ∧
      setup (.ofWords 0x40000000 0xFFFFFFFFFFFFFFFF) sample = .error .addOverflow sample := by
  have hall : ∀ image, Placement sample image :=
    setup_placement unset_sample.start_aligned unset_sample.shows fun _ => unset_sample.inside
  have hcount : sample.frameCount = 64 := by decide
  have henclosed : Enclosed sample.frames.region (.ofWords 0x40000000 0xFFFFFFFFFFFFFFFF) :=
    ⟨by decide, by decide, by decide⟩
  refine ⟨(hall sampleImage).placed ⟨by decide, by decide, by decide⟩ ?_, ?_⟩
  · rw [hcount]
    decide
  · have hstopped := (hall _).stopped henclosed
    rw [hcount] at hstopped
    exact hstopped (by decide)

end Memory

end HighHalf
