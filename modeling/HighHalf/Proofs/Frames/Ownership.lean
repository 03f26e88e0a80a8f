import HighHalf.Proofs.Frames.Custody

/-!
# Frames have one owner

In every state of every run, a frame that is handed out is one that nobody holds: it was never
handed out before, or was given back since. It comes zeroed, and handing it out changes nothing
but its own bytes and the bitmap, so what others hold keeps its contents.

## Main definitions

* `Custody.Exclusive`: what holds of a frame that is handed out, and of the rest of memory
-/

namespace HighHalf

open Memory

namespace Custody

/-- What holds of the frame at `p` that is handed out in the state `s`, and of the memory `m` that
is left. -/
structure Exclusive (image : PhysRange) (s : Custody) (p : PhysAddr) (m : Memory) : Prop where
  aligned : p.num % 4096 = 0
  inside : s.memory.frames.region.start.num ≤ p.num ∧
    p.num + 4096 ≤ s.memory.frames.region.stop.num
  behind : s.memory.frames.bitmap.num + s.memory.frames.bitmapSize ≤ p.num
  not_held : p ∉ s.held
  /-- The frame was never handed out, or was given back since it was. -/
  vacant : .granted p ∉ s.outcomes ∨ ∃ later earlier,
    s.outcomes = later ++ .returned p :: earlier ∧ .granted p ∉ later
  zeroed : ∀ n, p.num ≤ n → n < p.num + 4096 → m.cell n = 0
  /-- No other byte of RAM changes outside the bitmap. -/
  rest : ∀ n, s.memory.board.ram.base.num ≤ n → ¬ s.memory.InBitmap n →
    ¬ (p.num ≤ n ∧ n < p.num + 4096) → m.cell n = s.memory.cell n
  /-- No other bit of the bitmap changes. -/
  marks : ∀ i, i ≠ s.memory.frames.indexOf p → m.marked i = s.memory.marked i
  /-- Frames that are held keep their contents. -/
  held : ∀ q ∈ s.held, ∀ n, q.num ≤ n → n < q.num + 4096 → m.cell n = s.memory.cell n
  image : ∀ n, image.start.num ≤ n → n < image.stop.num → m.cell n = s.memory.cell n

variable {image : PhysRange} {s : Custody} {m : Memory} {p : PhysAddr}

/-- A managed frame without an owner that is zeroed, with all else left alone. -/
theorem Good.exclusive (h : s.Good image) (hman : s.memory.frames.Manages p)
    (hnot : ¬ s.memory.Owned p) (hzero : Zeroed m p) (hcells : Confined s.memory m p)
    (hmarks : ∀ i, i ≠ s.memory.frames.indexOf p → m.marked i = s.memory.marked i) :
    Exclusive image s p m := by
  have hc := h.consistent
  have hlow := hman.low
  have hhigh := hman.high
  have hbitmap := hc.plan.bitmap_high
  have htotal := hc.plan.total_eq
  have hheld : p ∉ s.held := fun hp => hnot ((h.owned p).2 hp)
  constructor
  case aligned => exact hman.aligned
  case inside => exact ⟨by omega, by omega⟩
  case behind => omega
  case not_held => exact hheld
  case vacant => exact Outcome.returned_of_not_held hheld
  case zeroed => exact hzero
  case rest => exact fun n hn hb hout => hcells n hn hb (by omega)
  case marks => exact hmarks
  case held =>
    intro q hq n hn hn'
    have hown := (h.owned q).2 hq
    have hne : p ≠ q := fun he => hnot (he ▸ hown)
    have hapart := hman.apart hown.managed hne
    have hbase := (hc.has hown.managed).1
    exact hcells n (by omega) (hc.not_inBitmap hown.managed hn) (by omega)
  case image =>
    -- The image lies below the bitmap, and the bitmap below every frame.
    intro n hn hn'
    have hstart := h.around.image_low
    have hstop := h.around.image_high
    have hbase := hc.inside.1
    refine hcells n (by omega) (fun hb => ?_) (by omega)
    have hfirst := hb.1
    omega

theorem Good.exclusive_takes (h : s.Good image) (t : Takes s.memory m p) (hzero : Zeroed m p) :
    Exclusive image s p m :=
  h.exclusive t.managed t.not_owned hzero t.cells fun i hi => by rw [t.marked, if_neg hi]

theorem Good.exclusive_draws (h : s.Good image) (d : Draws s.memory m p) (hzero : Zeroed m p) :
    Exclusive image s p m :=
  h.exclusive (h.consistent.pool_managed p d.mem_pool) d.not_owned hzero d.cells
    fun i _ => d.marked i

theorem Good.allocate_exclusive (h : s.Good image) :
    ∃ r m, Memory.allocate s.memory = .ok r m ∧
      (∀ p, r = some p → Exclusive image s p m ∧ p ∉ s.memory.frames.pool) ∧
      (r = none → m.board.ram = s.memory.board.ram) := by
  rcases allocate_takes h.consistent with ⟨m, hrun, hmiss⟩ | ⟨p, m, hrun, htakes, hzero⟩
  · refine ⟨none, m, hrun, fun p hp => ?_, fun _ => hmiss.ram⟩
    cases hp
  · refine ⟨some p, m, hrun, fun q hq => ?_, fun hnone => ?_⟩
    · cases hq
      exact ⟨h.exclusive_takes htakes hzero, htakes.not_parked h.consistent⟩
    · cases hnone

theorem Good.allocateTable_exclusive (h : s.Good image) :
    ∃ r m, Memory.allocateTable s.memory = .ok r m ∧
      (∀ p, r = some p → Exclusive image s p m ∧
        (p ∈ s.memory.frames.pool → s.memory.frames.pool.head? = some p)) ∧
      (r = none → m.board.ram = s.memory.board.ram) := by
  rcases allocateTable_draws h.consistent with ⟨-, hsame⟩ | ⟨p, m, hrun, hdraws, hzero⟩
  · obtain ⟨r, m, hrun, hgranted, hnone⟩ := h.allocate_exclusive
    refine ⟨r, m, hsame.trans hrun, fun p hp => ?_, hnone⟩
    obtain ⟨hexclusive, hpark⟩ := hgranted p hp
    exact ⟨hexclusive, fun hmem => absurd hmem hpark⟩
  · refine ⟨some p, m, hrun, fun q hq => ?_, fun hnone => ?_⟩
    · cases hq
      refine ⟨h.exclusive_draws hdraws hzero, fun _ => ?_⟩
      rw [hdraws.pool]
      rfl
    · cases hnone

/-- Whatever went before, a frame that is handed out has no other owner, and only a request for a
table is given a parked frame, which is the next one. -/
theorem Reachable.sole_owner (h : Reachable image s) :
    (∃ r m, Memory.allocate s.memory = .ok r m ∧
      (∀ p, r = some p → Exclusive image s p m ∧ p ∉ s.memory.frames.pool) ∧
      (r = none → m.board.ram = s.memory.board.ram)) ∧
    ∃ r m, Memory.allocateTable s.memory = .ok r m ∧
      (∀ p, r = some p → Exclusive image s p m ∧
        (p ∈ s.memory.frames.pool → s.memory.frames.pool.head? = some p)) ∧
      (r = none → m.board.ram = s.memory.board.ram) :=
  ⟨h.good.allocate_exclusive, h.good.allocateTable_exclusive⟩

/-- A frame of the small store is handed out while another one is held. -/
theorem Reachable.sole_owner_sample :
    ∃ m p₀ s m₁ p, Memory.setup sampleImage sample = .ok (.ok ()) m ∧
      s = (Custody.mk m [] []).step .allocate ∧ s.outcomes = [.granted p₀] ∧
      Memory.allocate s.memory = .ok (some p) m₁ ∧ Exclusive sampleImage s p m₁ ∧ p ≠ p₀ := by
  obtain ⟨m, hsetup, hset, hfree, -, -⟩ := setUp_sample
  have hr₀ : Reachable sampleImage ⟨m, [], []⟩ := Reachable.start unset_sample hsetup
  rcases allocate_takes hset.consistent with ⟨m₁, -, hmiss⟩ | ⟨p₀, m₁, hrun₁, htakes, -⟩
  · have hnone := hmiss.none_free
    omega
  · have hs₁ : (Custody.mk m [] []).step .allocate = ⟨m₁, [.granted p₀], [m]⟩ :=
      step_eq _ .allocate (run_bind_ok hrun₁)
    have hr₁ : Reachable sampleImage ⟨m₁, [.granted p₀], [m]⟩ := by
      rw [← hs₁]
      exact hr₀.step trivial
    have hleft : m₁.frames.free = 58 := by
      rw [htakes.frames]
      show m.frames.free - 1 = 58
      omega
    obtain ⟨⟨r, m₂, hrun₂, hgranted, -⟩, -⟩ := hr₁.sole_owner
    rcases allocate_takes htakes.consistent with ⟨m₃, -, hmiss⟩ | ⟨p, m₃, hrun₃, -, -⟩
    · have hnone := hmiss.none_free
      omega
    · have hsame : some p = r := by
        rw [hrun₃] at hrun₂
        cases hrun₂
        rfl
      obtain ⟨hexclusive, -⟩ := hgranted p hsame.symm
      refine ⟨m, p₀, _, m₂, p, hsetup, hs₁.symm, rfl, hsame ▸ hrun₂, hexclusive, ?_⟩
      exact fun he => hexclusive.not_held (he ▸ List.mem_cons_self)

end Custody

end HighHalf
