import HighHalf.Proofs.Boot.Bypass
import HighHalf.Proofs.Space.Halves
import HighHalf.Proofs.Tables.Cost

/-!
# The registers of devices

A device is mapped with the whole pages that hold its registers, to their high aliases. The kernel
finds the alias of a register by setting the bits of the base of the high half. That is adding the
base as long as the register lies below the end of what has a high alias, so the end of a device is
compared with that before anything is done. What lies below it is mapped byte for byte, and nothing
else is.

## Main definitions

* `Space.devicePageNumbers`: the pages that hold a register of a device
* `Space.deviceAlias`: where the kernel reaches a register
* `Space.Exposes`: what mapping a device changes
* `Space.Rooted`: the kernel is in the high half, with a sound tree for each half

## Main results

* `Lending.mapDevice_exact`: in every state in the high half, a device is mapped exactly
-/

namespace HighHalf

open Memory Tables

namespace Space

variable {c : MemoryConfig} {l : ImageLayout} {b : Board} {w : Window} {n : Nat} {s s' : Space}
  {roots : Roots} {held : List PhysAddr} {m : Memory} {ledger : Ledger} {p q : PhysAddr}
  {size : Word} {r : PhysRange} {v : VirtAddr}

/-! ## Pages and aliases -/

/-- The numbers of the pages that hold one of the `size` bytes from `p` on, of which there is one
at least. -/
def devicePageNumbers (p : PhysAddr) (size : Word) : Finset Nat :=
  (Finset.Ico p.num (p.num + max size.toNat 1)).image (· / 4096)

theorem devicePageNumbers_eq (p : PhysAddr) (size : Word) :
    devicePageNumbers p size =
      Finset.Ico (p.num / 4096) ((p.num + max size.toNat 1 + 4095) / 4096) := by
  ext i
  simp only [devicePageNumbers, Finset.mem_image, Finset.mem_Ico]
  constructor
  · rintro ⟨a, ⟨hlow, hhigh⟩, rfl⟩
    omega
  · rintro ⟨hlow, hhigh⟩
    -- The first byte of the page, or that of the device if the device begins inside the page.
    exact ⟨max p.num (4096 * i), by omega, by omega⟩

theorem card_devicePageNumbers (p : PhysAddr) (size : Word) :
    (devicePageNumbers p size).card =
      (p.num + max size.toNat 1 + 4095) / 4096 - p.num / 4096 := by
  rw [devicePageNumbers_eq, Nat.card_Ico]

/-- Where the kernel reaches the byte at `p`. -/
def deviceAlias (s : Space) (p : PhysAddr) : VirtAddr := .ofWord (s.deviceAddress p)

theorem deviceAlias_eq (hmode : s.mode = .resolved) (hbase : s.config.highBase = highBase)
    (p : PhysAddr) : s.deviceAlias p = p.highAlias highBase := by
  rw [deviceAlias, deviceAddress, if_pos hmode, hbase, PhysAddr.highAlias]

/-! ## In the high half -/

/-- The kernel is in the high half of a 48-bit address space, with a sound tree for each half. -/
structure Rooted (s : Space) (roots : Roots) (held : List PhysAddr) : Prop where
  mode : s.mode = .resolved
  kept : s.roots = some roots
  base : s.config.highBase = highBase
  ne : roots.low ≠ roots.high
  sound : s.memory.Sound [roots.high, roots.low] held

/-- What mapping the `size` bytes of a device at `p` to `n` pages changes. -/
structure Exposes (s s' : Space) (roots : Roots) (p : PhysAddr) (size : Word) (n : Nat) :
    Prop where
  /-- The pages are those that hold a byte of the device. -/
  pages : n = (devicePageNumbers p size).card
  /-- Every byte of these pages is reached as device memory. -/
  bytes : ∀ q : PhysAddr, q.num / 4096 ∈ devicePageNumbers p size →
    Tables.resolve s'.memory.board.ram s'.memory.frames.window roots.high (s'.deviceAlias q) =
        some q ∧
      (s'.memory.lookup roots.high (s'.deviceAlias q)).flags = .device
  /-- Neither the kernel nor user code executes any of them. -/
  inert : ∀ q : PhysAddr, q.num / 4096 ∈ devicePageNumbers p size →
    (s'.memory.lookup roots.high (s'.deviceAlias q)).flags.contains
      (Flags.kernelNoExec ||| Flags.userNoExec) = true
  /-- No other address sees a change. -/
  others : ∀ v, (∀ q : PhysAddr, q.num / 4096 ∈ devicePageNumbers p size → v ≠ s'.deviceAlias q) →
    s'.entry v = s.entry v

/-! ## The aliases of a device -/

section Aliases

variable (hpages : devicePages p size = some r)

include hpages

/-- The bounds of the aliases of a device. -/
theorem num_aliases :
    (r.start.highAlias highBase).num = 2 ^ 64 - 2 ^ 47 + r.start.num ∧
      (r.stop.highAlias highBase).num = 2 ^ 64 - 2 ^ 47 + r.stop.num ∧
      r.start.num < r.stop.num ∧ r.stop.num < 2 ^ 47 := by
  obtain ⟨hfits, hstart, hstop⟩ := num_devicePages hpages
  rw [VirtAddr.num_highAlias (by omega), VirtAddr.num_highAlias (by omega)]
  omega

theorem proper_of_device :
    Proper (r.start.highAlias highBase) (r.stop.highAlias highBase) r.start .device := by
  obtain ⟨hstart, hstop, hlt, -⟩ := num_aliases hpages
  obtain ⟨-, hfirst, hlast⟩ := num_devicePages hpages
  exact ⟨by omega, by omega, by omega, by omega, by decide⟩

theorem mem_devicePageNumbers :
    q.num / 4096 ∈ devicePageNumbers p size ↔ r.start.num ≤ q.num ∧ q.num < r.stop.num := by
  obtain ⟨-, hstart, hstop⟩ := num_devicePages hpages
  rw [devicePageNumbers_eq, Finset.mem_Ico]
  omega

/-- The alias of a byte of these pages lies among the aliases. -/
theorem num_alias_of_mem (hq : q.num / 4096 ∈ devicePageNumbers p size) :
    (q.highAlias highBase).num = 2 ^ 64 - 2 ^ 47 + q.num ∧ r.start.num ≤ q.num ∧
      q.num < r.stop.num := by
  obtain ⟨-, -, -, htop⟩ := num_aliases hpages
  rw [mem_devicePageNumbers hpages] at hq
  exact ⟨VirtAddr.num_highAlias (by omega), hq⟩

/-- Every address among the aliases is the alias of a byte of these pages. -/
theorem exists_alias (hlow : 2 ^ 64 - 2 ^ 47 + r.start.num ≤ v.num)
    (hhigh : v.num < 2 ^ 64 - 2 ^ 47 + r.stop.num) :
    ∃ q : PhysAddr, q.num / 4096 ∈ devicePageNumbers p size ∧ v = q.highAlias highBase := by
  obtain ⟨-, -, -, htop⟩ := num_aliases hpages
  obtain ⟨q, hq⟩ : ∃ q : PhysAddr, q.num = v.num - (2 ^ 64 - 2 ^ 47) :=
    ⟨⟨UInt64.ofNat (v.num - (2 ^ 64 - 2 ^ 47))⟩, UInt64.toNat_ofNat_of_lt'
      (by show v.num - (2 ^ 64 - 2 ^ 47) < 2 ^ 64; omega)⟩
  refine ⟨q, (mem_devicePageNumbers hpages).2 (by omega), VirtAddr.num_inj ?_⟩
  rw [VirtAddr.num_highAlias (by omega)]
  omega

end Aliases

/-! ## Mapping a device -/

section Mapped

variable (h : s.Rooted roots held) (hpages : devicePages p size = some r)

include h hpages

/-- The pages of a device are mapped below the high root. -/
theorem Rooted.run_mapDevice {o : Except MapError Nat}
    (hmap : (Tables.mapRange roots.high (r.start.highAlias highBase) (r.stop.highAlias highBase)
      r.start .device).run s.memory = .ok o m) :
    ∃ s' ledger, (mapDevice p size).run s = .ok o s' ∧ Answered s s' m ledger := by
  obtain ⟨hstart, hstop, hlt, -⟩ := num_aliases hpages
  have hroot : s.rootFor (r.start.highAlias highBase) (r.stop.highAlias highBase) =
      .ok roots.high := by
    have hlast := num_lastOf (r.start.highAlias highBase) (r.stop.highAlias highBase) (by omega)
    exact rootFor_of_high h.kept (VirtAddr.high_eq_true (by omega))
      (VirtAddr.high_eq_true (by omega))
  obtain ⟨s', hrun, hanswer⟩ := run_mapBelow "device" hmap
  have hdevice : (mapDevice p size).run s = .ok o s' := by
    unfold mapDevice
    rw [hpages]
    refine (run_bindE_ok (run_getE s)).trans ?_
    rw [h.base]
    exact (run_mapNamed_of_root h.mode hroot).trans hrun
  rcases hanswer with ⟨e, -, hanswer⟩ | ⟨n, -, hanswer⟩
  · exact ⟨s', _, hdevice, hanswer⟩
  · exact ⟨s', _, hdevice, hanswer⟩

section Leaves

variable (hanswer : Answered s s' m ledger)
  (hmap : (Tables.mapRange roots.high (r.start.highAlias highBase) (r.stop.highAlias highBase)
    r.start .device).run s.memory = .ok (.ok n) m)

include hanswer hmap

/-- What both trees show once the mapper has painted the pages of a device. -/
theorem Rooted.leaves_of_device :
    n = (devicePageNumbers p size).card ∧
      (∀ v : VirtAddr, v.Canonical → s'.memory.lookup roots.high v =
        if 2 ^ 64 - 2 ^ 47 + r.start.num ≤ v.num ∧ v.num < 2 ^ 64 - 2 ^ 47 + r.stop.num then
          Area.leaf (v.num - (2 ^ 64 - 2 ^ 47)) .device
        else s.memory.lookup roots.high v) ∧
      ∀ v, s'.memory.lookup roots.low v = s.memory.lookup roots.low v := by
  obtain ⟨hstart, hstop, hlt, htop⟩ := num_aliases hpages
  obtain ⟨-, hfirst, hlast⟩ := num_devicePages hpages
  have hspec := mapRange_spec (r.start.highAlias highBase) (r.stop.highAlias highBase) r.start
    .device h.sound List.mem_cons_self
  rw [hmap] at hspec
  obtain ⟨-, hask, rfl, -, hleaves⟩ := hspec
  refine ⟨?_, fun v hv => ?_, fun v => ?_⟩
  · rw [pagesBetween_eq hask.le, card_devicePageNumbers]
    omega
  · rw [hanswer.lookup, hleaves roots.high List.mem_cons_self v, if_pos rfl,
      painted_area (2 ^ 64 - 2 ^ 47) r.stop.num hstart hstop (Or.inr rfl) htop hask hv]
  · rw [hanswer.lookup, hleaves roots.low (by simp) v, if_neg h.ne]

/-- The leaf of a byte of the device. -/
theorem Rooted.lookup_of_device (hq : q.num / 4096 ∈ devicePageNumbers p size) :
    s'.memory.lookup roots.high (q.highAlias highBase) = leafOf q.floor .device := by
  obtain ⟨-, hhigh, -⟩ := h.leaves_of_device hpages hanswer hmap
  obtain ⟨hnum, hin⟩ := num_alias_of_mem hpages hq
  obtain ⟨-, -, -, htop⟩ := num_aliases hpages
  rw [hhigh (q.highAlias highBase) (VirtAddr.canonical_ofWord _), hnum, Nat.add_sub_cancel_left,
    if_pos (by omega), ← leafOf_floor (by omega)]

/-- An address that is not the alias of a byte of the device keeps its leaf. -/
theorem Rooted.entry_of_device (hkept : s'.roots = some roots)
    (hout : ∀ q : PhysAddr, q.num / 4096 ∈ devicePageNumbers p size → v ≠ q.highAlias highBase) :
    s'.entry v = s.entry v := by
  obtain ⟨-, hhigh, hlow⟩ := h.leaves_of_device hpages hanswer hmap
  have hshown : s'.memory.leafOfHalf roots v = s.memory.leafOfHalf roots v := by
    unfold leafOfHalf
    by_cases hv : v.high = true
    · rw [if_pos hv, ← lookup_eq_of_trail v.trail_ofWord, hhigh _ (VirtAddr.canonical_ofWord _),
        if_neg, lookup_eq_of_trail v.trail_ofWord]
      rintro ⟨hfrom, hto⟩
      -- Of all addresses that are walked from the high root, only `v` itself has these slots.
      have hsame : (VirtAddr.ofWord v.val).num = v.num := by
        have hform := VirtAddr.num_ofWord v.val
        have hlt := v.num_lt
        rw [VirtAddr.high_iff_num] at hv
        rw [show v.val.toNat = v.num from rfl] at hform
        split at hform <;> omega
      rw [hsame] at hfrom hto
      obtain ⟨q, hq, hv'⟩ := exists_alias hpages hfrom hto
      exact hout q hq hv'
    · rw [if_neg hv]
      exact hlow v
  rw [Space.entry, Space.entry, hkept, h.kept]
  exact hshown

theorem Rooted.exposes : Exposes s s' roots p size n := by
  obtain ⟨hcount, -⟩ := h.leaves_of_device hpages hanswer hmap
  have hleaf : ∀ q : PhysAddr, q.num / 4096 ∈ devicePageNumbers p size →
      s'.memory.lookup roots.high (q.highAlias highBase) = leafOf q.floor .device :=
    fun q hq => h.lookup_of_device hpages hanswer hmap hq
  have hentry := fun v hout => h.entry_of_device (v := v) hpages hanswer hmap hout
  have hflags : ∀ q : PhysAddr, (leafOf q.floor .device).flags = .device := by
    intro q
    rw [leafOf, Entry.flags_toLeaf (by decide)]
  obtain ⟨b, rfl⟩ := hanswer.kept
  have hshown := deviceAlias_eq (s := { s with memory := ⟨b, m.frames⟩, ledger := ledger })
    h.mode h.base
  constructor
  case pages => exact hcount
  case bytes =>
    intro q hq
    obtain ⟨hnum, hin⟩ := num_alias_of_mem hpages hq
    obtain ⟨-, -, -, htop⟩ := num_aliases hpages
    have hfloor := q.num_floor
    have hword : q.floor.val.toNat = q.floor.num := rfl
    rw [hshown, hleaf q hq]
    refine ⟨?_, hflags q⟩
    rw [resolve_of_lookup (by decide) (by omega) (by omega) (hleaf q hq), Option.some.injEq]
    refine PhysAddr.num_inj ?_
    rw [PhysAddr.num_mk, UInt64.toNat_add, VirtAddr.num_inPage, hword, hnum]
    omega
  case inert =>
    intro q hq
    rw [hshown, hleaf q hq, hflags]
    decide
  case others =>
    intro v hout
    refine hentry v h.kept fun q hq => ?_
    rw [← hshown]
    exact hout q hq

end Leaves

end Mapped

/-- A device below the end of what has a high alias is mapped unless a frame for a table is
missing. -/
theorem Rooted.mapDevice_of_fits (h : s.Rooted roots held)
    (hfits : p.num + max size.toNat 1 ≤ 2 ^ 47 - 4096) :
    ∃ o s', (mapDevice p size).run s = .ok o s' ∧
      (o = .error .outOfFrames ∧ (∀ v, s'.entry v = s.entry v) ∨
        ∃ n, o = .ok n ∧ Exposes s s' roots p size n) := by
  obtain ⟨r, hpages⟩ := exists_devicePages hfits
  obtain ⟨hstart, hstop, hlt, htop⟩ := num_aliases hpages
  have hask := proper_of_device hpages
  have hroot : roots.high ∈ [roots.high, roots.low] := List.mem_cons_self
  have hspec := mapRange_spec (r.start.highAlias highBase) (r.stop.highAlias highBase) r.start
    .device h.sound hroot
  cases hmap : (Tables.mapRange roots.high (r.start.highAlias highBase)
      (r.stop.highAlias highBase) r.start .device).run s.memory with
  | error e m =>
    -- The frames of a device are far from the end of the words.
    rw [hmap] at hspec
    obtain ⟨-, -, hbig⟩ := hspec
    rw [pagesBetween_eq hask.le] at hbig
    omega
  | ok o m =>
    rw [hmap] at hspec
    obtain ⟨s', ledger, hrun, hanswer⟩ := h.run_mapDevice hpages hmap
    refine ⟨o, s', hrun, ?_⟩
    cases o with
    | error e =>
      obtain ⟨rfl, -⟩ := hspec.2 hask
      have hsame := sameLeaves_of_failed h.sound hroot (by omega) hmap
      have hkept : s'.roots = s.roots := by
        obtain ⟨b, rfl⟩ := hanswer.kept
        rfl
      exact Or.inl ⟨rfl, entry_eq_of_lookup h.kept hkept fun root hmem v =>
        (hanswer.lookup root v).trans (hsame root hmem v)⟩
    | ok n => exact Or.inr ⟨n, rfl, h.exposes hpages hanswer hmap⟩

/-! ## Runs -/

theorem rooted_of_boot (h : Transition.Hosted c l b w) (htop : c.memory.stop.num ≤ 2 ^ 48)
    (hboot : boot (asked c l b w n) = .ok .resolved s) : ∃ roots, s.Rooted roots [] := by
  obtain ⟨m₁, s₂, roots, d, s₃, k, hsetup, hprepare, hcomplete, hroots, hframes, -, hquiet,
    hlast⟩ := exists_of_boot hboot
  obtain ⟨s₁, hpassed, henable, hwidth⟩ := passed_of_prepare h htop hsetup hprepare
  obtain ⟨x, hcrossed⟩ :=
    crossed_of_complete hpassed hwidth henable hcomplete hroots hframes hquiet hlast
  have hle := le_of_setup hsetup
  obtain ⟨hstart, -⟩ := Transition.aligned_of_prepare hprepare hle
  have hset := setup_spec ⟨rfl, rfl, rfl, hstart, h.shows, h.inside⟩ hsetup
  have hne := Transition.ne_of_prepare (sound_of_setup hset hle htop) hprepare
  have hmode := (inHighHalf_of_boot rfl hboot).mode
  have hconfig := (live_of_boot hboot).2
  refine ⟨roots, hmode, hroots, ?_, hne, sound_of_crossed hpassed hcrossed⟩
  rw [hconfig]
  exact MemoryConfig.highBase_of_width hwidth

end Space

namespace Lending

open Space

variable {c : MemoryConfig} {l : ImageLayout} {b : Board} {w : Window} {x y : Lending}
  {roots : Roots}

theorem rooted_step (h : x.space.Rooted roots x.held) (hstep : Step x y) :
    y.space.Rooted roots y.held := by
  have horderly : x.Orderly roots := ⟨h.mode, h.kept, h.sound⟩
  have hafter := (horderly.step hstep).1
  obtain ⟨m, ledger, hkept⟩ := (hstep.served (by rw [h.mode]; decide)).kept
  refine ⟨hafter.mode, hafter.recorded, ?_, h.ne, hafter.sound⟩
  rw [hkept]
  exact h.base

/-- Callers that give back only frames that they hold leave the trees sound. -/
theorem rooted_of_run (h : Transition.Hosted c l b w) (htop : c.memory.stop.num ≤ 2 ^ 48)
    (hrun : Relation.ReflTransGen Step ⟨fresh c l b w, []⟩ x)
    (hmode : x.space.mode = .resolved) : ∃ roots, x.space.Rooted roots x.held := by
  refine resolved_of_run (P := fun x => ∃ roots, x.space.Rooted roots x.held) h htop id
    (fun hhosted _ hboot => rooted_of_boot hhosted htop hboot) (fun _ hrooted hstep => ?_) hrun
    hmode
  obtain ⟨roots, hrooted⟩ := hrooted
  exact ⟨roots, rooted_step hrooted hstep⟩

/-- In every state in the high half that is reached while callers give back only frames that they
hold, a device that comes too near the end of what has a high alias is refused, and nothing is
done. Any other is mapped byte for byte, and no other address sees a change; or a frame for a table
is missing, and then no address does. -/
theorem mapDevice_exact (h : Transition.Hosted c l b w) (htop : c.memory.stop.num ≤ 2 ^ 48)
    (hrun : Relation.ReflTransGen Step ⟨fresh c l b w, []⟩ x)
    (hmode : x.space.mode = .resolved) (p : PhysAddr) (size : Word) :
    (2 ^ 47 - 4096 < p.num + max size.toNat 1 →
      (mapDevice p size).run x.space = .ok (.error .badRange) x.space) ∧
    (p.num + max size.toNat 1 ≤ 2 ^ 47 - 4096 →
      ∃ roots o s, x.space.roots = some roots ∧ (mapDevice p size).run x.space = .ok o s ∧
        (o = .error .outOfFrames ∧ (∀ v, s.entry v = x.space.entry v) ∨
          ∃ n, o = .ok n ∧ Exposes x.space s roots p size n)) := by
  refine ⟨fun hfar => ?_, fun hfits => ?_⟩
  · rcases devicePages_cases p size with ⟨-, hnone⟩ | ⟨hfits, -⟩
    · exact run_mapDevice_refused hnone
    · omega
  · obtain ⟨roots, hrooted⟩ := rooted_of_run h htop hrun hmode
    obtain ⟨o, s, hanswer⟩ := hrooted.mapDevice_of_fits hfits
    exact ⟨roots, o, s, hrooted.kept, hanswer⟩

/-- The sample board after its boot: four bytes on both sides of the end of the serial port's page,
and a byte in the last page that has a high alias. -/
theorem mapDevice_exact_sample :
    ∃ s s' roots,
      boot (fresh sampleConfig SampleBoard.layout sampleBoard .identity) = .ok .resolved s ∧
      Relation.ReflTransGen Step ⟨fresh sampleConfig SampleBoard.layout sampleBoard .identity, []⟩
        ⟨s, []⟩ ∧
      s.mode = .resolved ∧ s.roots = some roots ∧
      (mapDevice ⟨0x9000FFE⟩ 4).run s = .ok (.ok 2) s' ∧
      Exposes s s' roots ⟨0x9000FFE⟩ 4 2 ∧
      (mapDevice ⟨0x7FFFFFFFF000⟩ 0).run s = .ok (.error .badRange) s := by
  obtain ⟨s, hboot⟩ := boot_resolves_sample
  obtain ⟨roots, m, k, hpassed, hcrossed⟩ := crossed_of_boot hosted_sample (by decide) hboot
  obtain ⟨roots', hrooted⟩ := rooted_of_boot (n := 0) hosted_sample (by decide) hboot
  obtain rfl := Option.some.inj (hcrossed.kept.symm.trans hrooted.kept)
  have hrun : Relation.ReflTransGen Step
      ⟨fresh sampleConfig SampleBoard.layout sampleBoard .identity, []⟩ ⟨s, []⟩ :=
    .single (.call .boot trivial (run_bind_ok hboot))
  have hexact := mapDevice_exact hosted_sample (by decide) hrun hrooted.mode
  have hpages : devicePages ⟨0x9000FFE⟩ 4 = some (.ofWords 0x9000000 0x9002000) := by decide
  -- The page after that of the serial port has the same leaf table.
  have hstart : VirtAddr.Canonical (PhysAddr.highAlias ⟨0x9000000⟩ highBase) :=
    VirtAddr.canonical_ofWord _
  have hleaf : s.memory.lookup roots.high (PhysAddr.highAlias ⟨0x9000000⟩ highBase) =
      leafOf ⟨0x9000000⟩ .device := by
    have hlaid := hpassed.laid feasible_sample.low (by decide)
    rw [lookup_of_crossed hpassed hcrossed List.mem_cons_self, hlaid.high _ hstart]
    decide
  obtain ⟨t, ht⟩ := reaches_of_leaf (by decide) hleaf
  have hfirst : (makeLeafTables roots.high (PhysAddr.highAlias ⟨0x9000000⟩ highBase) 0 1).run
      s.memory = .ok (.ok ()) s.memory := by
    refine run_makeLeafTables_of_reaches fun j _ hj => ⟨t, ?_⟩
    rw [show j = 0 by omega, show firstPageIn _ 0 = 0 from rfl, pageOf_zero hstart]
    exact ht
  obtain ⟨m', hmap, -⟩ := mapRange_of_firstPass hrooted.sound List.mem_cons_self
    (proper_of_device hpages) (by decide) hfirst
  obtain ⟨s', ledger, hdone, -⟩ := hrooted.run_mapDevice hpages hmap
  obtain ⟨roots', o, s'', hroots', hdone', hcases⟩ := (hexact ⟨0x9000FFE⟩ 4).2 (by decide)
  obtain rfl := Option.some.inj (hrooted.kept.symm.trans hroots')
  cases hdone.symm.trans hdone'
  rcases hcases with ⟨hno, -⟩ | ⟨n, hn, hexposes⟩
  · cases hno
  · cases hn
    exact ⟨s, s', roots, hboot, hrun, hrooted.mode, hrooted.kept, hdone, hexposes,
      (hexact ⟨0x7FFFFFFFF000⟩ 0).1 (by decide)⟩

end Lending

end HighHalf
