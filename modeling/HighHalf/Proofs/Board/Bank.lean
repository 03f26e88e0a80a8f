import HighHalf.Tables.Walk
import HighHalf.Proofs.Address.Masks

/-!
# A bank of RAM seen through a window

The kernel names bytes of RAM by the place at which it reaches them; the facts about them are
facts about physical addresses. A window that shows the whole bank joins the two, and every
read and every store is restated here for the physical bytes, so that nothing later depends on
which window was used.

## Main definitions

* `Ram.cell`: the byte of the bank at a physical address
* `Ram.Shows`: the window reaches every byte of the bank where the bank has it
* `Ram.SameOn`: two states of a bank agree on a run of physical addresses
-/

namespace HighHalf

/-- The address `n` bytes up, round the end of the word. -/
def PhysAddr.up (p : PhysAddr) (n : Nat) : PhysAddr := ⟨p.val + UInt64.ofNat n⟩

theorem PhysAddr.num_up {p : PhysAddr} {n : Nat} (h : p.num + n < 2 ^ 64) :
    (p.up n).num = p.num + n := by
  have hnum : p.val.toNat = p.num := rfl
  rw [up, num_mk, UInt64.toNat_add, UInt64.toNat_ofNat_of_lt' (by show n < 2 ^ 64; omega), hnum]
  omega

theorem PhysAddr.up_up (p : PhysAddr) (m n : Nat) : (p.up m).up n = p.up (m + n) := by
  simp [up, UInt64.add_assoc]

theorem Window.reach_up (w : Window) (p : PhysAddr) (n : Nat) :
    w.reach (p.up n) = w.reach p + UInt64.ofNat n := by
  simp only [reach, PhysAddr.up]
  ac_rfl

/-! ## Runs of zero bytes -/

theorem zeroRun_zero (b : ByteArray) (i : Nat) : zeroRun b i 0 = b := by
  refine ByteArray.ext ?_
  have hs : b.data.size = b.size := rfl
  rw [data_zeroRun, Nat.zero_min, Nat.add_zero, Array.replicate_zero, Array.append_empty,
    Array.extract_append_extract, Nat.zero_min, ← hs, Array.extract_eq_self_of_le (by omega)]

theorem byteAt_zeroRun (b : ByteArray) (i n j : Nat) (h : i + n ≤ b.size) :
    byteAt (zeroRun b i n) j = if i ≤ j ∧ j < i + n then 0 else byteAt b j := by
  have hm : min n (b.size - i) = n := by omega
  have hs : b.data.size = b.size := rfl
  have hpre : (b.data.extract 0 i).size = i := by
    rw [Array.size_extract, hs]
    omega
  simp only [byteAt_eq_getD, data_zeroRun, hm, Array.getElem?_append, Array.size_append,
    Array.size_replicate, hpre]
  by_cases h1 : j < i
  · rw [if_pos (by omega), if_pos h1, if_neg (by omega), Array.getElem?_extract,
      if_pos (by omega), Nat.zero_add]
  · by_cases h2 : j < i + n
    · rw [if_pos h2, if_neg h1, if_pos ⟨by omega, h2⟩, Array.getElem?_replicate,
        if_pos (by omega)]
      rfl
    · rw [if_neg h2, if_neg (by omega), Array.getElem?_extract]
      by_cases h3 : j < b.size
      · rw [if_pos (by omega), show i + n + (j - (i + n)) = j from by omega]
      · rw [if_neg (by omega), Array.getElem?_eq_none (by omega)]

namespace Ram

variable {r s t : Ram} {w : Window} {p q : PhysAddr} {a b n : Nat}

/-! ## The bytes of a bank -/

/-- The byte of the bank at physical address `n`. -/
def cell (r : Ram) (n : Nat) : UInt8 := byteAt r.bytes (n - r.base.num)

/-- Whether the `n` bytes from physical address `a` on are in the bank. -/
def Has (r : Ram) (a n : Nat) : Prop := r.base.num ≤ a ∧ a + n ≤ r.base.num + r.size

/-- The window reaches every byte of the bank where the bank has it. -/
structure Shows (r : Ram) (w : Window) : Prop where
  top : r.base.num + r.size ≤ 2 ^ 64
  offset_reach : ∀ p : PhysAddr, r.Has p.num 1 → r.offset (w.reach p) = p.num - r.base.num

/-- The same bank, perhaps with other contents. -/
structure SameBank (r s : Ram) : Prop where
  base : s.base = r.base
  size : s.size = r.size
  home : s.home = r.home
  gap : s.gap = r.gap

/-- The two banks hold the same bytes from physical address `a` up to `b`. -/
def SameOn (r s : Ram) (a b : Nat) : Prop := ∀ n, a ≤ n → n < b → s.cell n = r.cell n

theorem Has.mono (h : r.Has a n) {b m : Nat} (hab : a ≤ b) (hbm : b + m ≤ a + n) : r.Has b m :=
  ⟨Nat.le_trans h.1 hab, Nat.le_trans hbm h.2⟩

theorem Has.num_up (h : r.Has p.num n) (htop : r.base.num + r.size ≤ 2 ^ 64) {m : Nat}
    (hm : m < n) : (p.up m).num = p.num + m := by
  have := h.2
  exact PhysAddr.num_up (by omega)

theorem SameBank.refl (r : Ram) : SameBank r r := ⟨rfl, rfl, rfl, rfl⟩

theorem SameBank.trans (h : SameBank r s) (h' : SameBank s t) : SameBank r t :=
  ⟨h'.base.trans h.base, h'.size.trans h.size, h'.home.trans h.home, h'.gap.trans h.gap⟩

theorem SameBank.symm (h : SameBank r s) : SameBank s r :=
  ⟨h.base.symm, h.size.symm, h.home.symm, h.gap.symm⟩

theorem SameBank.has (h : SameBank r s) : s.Has a n ↔ r.Has a n := by
  rw [Has, Has, h.base, h.size]

theorem SameBank.shows (h : SameBank r s) (hw : r.Shows w) : s.Shows w where
  top := by rw [h.base, h.size]; exact hw.top
  offset_reach := by
    intro p hp
    rw [offset_congr h.size h.home h.gap, h.base]
    exact hw.offset_reach p (h.has.1 hp)

theorem SameOn.refl (r : Ram) (a b : Nat) : SameOn r r a b := fun _ _ _ => rfl

theorem SameOn.trans (h : SameOn r s a b) (h' : SameOn s t a b) : SameOn r t a b :=
  fun n ha hb => (h' n ha hb).trans (h n ha hb)

theorem SameOn.mono (h : SameOn r s a b) {c d : Nat} (hc : a ≤ c) (hd : d ≤ b) :
    SameOn r s c d :=
  fun n ha hb => h n (Nat.le_trans hc ha) (Nat.lt_of_lt_of_le hb hd)

/-- A bank is shown by the window of its first place. -/
theorem shows_window (h : r.base.num + r.size ≤ 2 ^ 64) : r.Shows r.window := by
  refine ⟨h, fun p hp => ?_⟩
  have hlow := hp.1
  have hhigh := hp.2
  have hoff : r.window.reach p - r.home = p.val - r.base.val := by
    apply UInt64.toNat_inj.1
    simp only [window, Window.reach, UInt64.toNat_sub, UInt64.toNat_add]
    have h1 := r.home.toNat_lt
    have h2 := r.base.val.toNat_lt
    have h3 := p.val.toNat_lt
    omega
  have hnum : (p.val - r.base.val).toNat = p.num - r.base.num :=
    UInt64.toNat_sub_of_le _ _ (UInt64.le_iff_toNat_le.2 hlow)
  have hsize : r.bytes.size = r.size := rfl
  rw [offset, hoff, hnum, if_pos (by omega)]

/-- A bank is shown by the window of its second place as well, if that lies behind the first. -/
theorem shows_upper (h : r.base.num + r.size ≤ 2 ^ 64) (hgap : r.size ≤ r.gap.toNat)
    (htop : r.gap.toNat + r.size ≤ 2 ^ 64) : r.Shows (r.window.shifted r.gap) := by
  refine ⟨h, fun p hp => ?_⟩
  have hlow := hp.1
  have hhigh := hp.2
  have hnum : (p.val - r.base.val).toNat = p.num - r.base.num :=
    UInt64.toNat_sub_of_le _ _ (UInt64.le_iff_toNat_le.2 hlow)
  have hsize : r.bytes.size = r.size := rfl
  have hoff : (r.window.shifted r.gap).reach p - r.home = p.val - r.base.val + r.gap := by
    simp only [window, Window.shifted, Window.reach]
    grind
  have hsum : (p.val - r.base.val + r.gap).toNat = p.num - r.base.num + r.gap.toNat := by
    rw [UInt64.toNat_add, hnum, Nat.mod_eq_of_lt (by omega)]
  -- Seen from the first place the byte lies behind the bank.
  rw [offset, hoff, hsum, if_neg (by omega), UInt64.add_sub_cancel, hnum]

theorem byte_reach (hw : r.Shows w) (hp : r.Has p.num 1) : r.byte (w.reach p) = r.cell p.num := by
  rw [byte, hw.offset_reach p hp, cell]

/-! ## Storing bytes -/

theorem sameBank_setByte (r : Ram) (a : Word) (v : UInt8) : SameBank r (r.setByte a v) :=
  ⟨rfl, r.size_setByte a v, rfl, rfl⟩

theorem cell_setByte (hw : r.Shows w) (hp : r.Has p.num 1) (v : UInt8) {n : Nat}
    (hn : r.base.num ≤ n) :
    (r.setByte (w.reach p) v).cell n = if n = p.num then v else r.cell n := by
  have hlo := hp.1
  have hhi : p.num + 1 ≤ r.base.num + r.bytes.size := hp.2
  show byteAt (putByte r.bytes (r.offset (w.reach p)) v) (n - r.base.num) = _
  rw [hw.offset_reach p hp, byteAt_putByte]
  by_cases h : n = p.num
  · rw [if_pos ⟨by omega, by omega⟩, if_pos h]
  · rw [if_neg (by omega), if_neg h]
    rfl

theorem sameBank_setLittle (r : Ram) (a : Word) (n : Nat) (v : Word) :
    SameBank r (r.setLittle a n v) := by
  induction n generalizing r a v with
  | zero => exact SameBank.refl r
  | succ n ih => exact (sameBank_setByte r a v.toUInt8).trans (ih ..)

theorem reach_succ (w : Window) (p : PhysAddr) : w.reach p + 1 = w.reach (p.up 1) :=
  (w.reach_up p 1).symm

theorem cell_setLittle_of_lt (hw : r.Shows w) (hp : r.Has p.num n) (v : Word) {j : Nat}
    (hj : r.base.num ≤ j) (hout : j < p.num ∨ p.num + n ≤ j) :
    (r.setLittle (w.reach p) n v).cell j = r.cell j := by
  induction n generalizing r p v with
  | zero => rfl
  | succ n ih =>
    have hsame := sameBank_setByte r (w.reach p) v.toUInt8
    have hone : r.Has p.num 1 := hp.mono (Nat.le_refl _) (by omega)
    have hhi := hp.2
    rw [setLittle, reach_succ]
    cases n with
    | zero => rw [setLittle, cell_setByte hw hone _ hj, if_neg (by omega)]
    | succ n =>
      have hup : (p.up 1).num = p.num + 1 := hp.num_up hw.top (by omega)
      rw [ih (hsame.shows hw) (hsame.has.2 (by rw [hup]; exact hp.mono (by omega) (by omega)))
        _ (by rw [hsame.base]; exact hj) (by omega), cell_setByte hw hone _ hj, if_neg (by omega)]

/-! ## Words -/

/-- The number in the `n` bytes from physical address `a` on, least significant byte first. -/
def number (r : Ram) (a : Nat) : Nat → Nat
  | 0 => 0
  | n + 1 => (r.cell a).toNat + 256 * r.number (a + 1) n

theorem number_lt (r : Ram) (a n : Nat) : r.number a n < 256 ^ n := by
  induction n generalizing a with
  | zero => simp [number]
  | succ n ih =>
    have hc := (r.cell a).toNat_lt
    have := ih (a + 1)
    rw [number, Nat.pow_succ]
    omega

theorem number_congr (h : SameOn r s a (a + n)) : s.number a n = r.number a n := by
  induction n generalizing a with
  | zero => rfl
  | succ n ih =>
    rw [number, number, h a (Nat.le_refl _) (by omega), ih (h.mono (by omega) (by omega))]

/-- The number tells the bytes. -/
theorem sameOn_of_number (h : s.number a n = r.number a n) : SameOn r s a (a + n) := by
  induction n generalizing a with
  | zero => exact fun k hk hk' => by omega
  | succ n ih =>
    have hr := (r.cell a).toNat_lt
    have hs := (s.cell a).toNat_lt
    rw [number, number] at h
    intro k hk hk'
    rcases Nat.eq_or_lt_of_le hk with rfl | hlt
    · exact UInt8.toNat_inj.1 (by omega)
    · exact ih (a := a + 1) (by omega) k hlt (by omega)

/-- Putting a byte below a number of at most seven bytes. -/
theorem toNat_or_shift (b : UInt8) {x : Word} (hx : x.toNat < 2 ^ 56) :
    (b.toUInt64 ||| (x <<< 8)).toNat = b.toNat + 256 * x.toNat := by
  have hb : b.toNat < 2 ^ 8 := b.toNat_lt
  have h8 : (8 : UInt64).toNat % 64 = 8 := rfl
  rw [UInt64.toNat_or, UInt64.toNat_shiftLeft, h8, Nat.shiftLeft_eq,
    Nat.mod_eq_of_lt (by omega), UInt8.toNat_toUInt64, Nat.or_comm, Nat.mul_comm x.toNat,
    ← Nat.two_pow_add_eq_or_of_lt hb]
  omega

theorem toNat_little (hw : r.Shows w) (hp : r.Has p.num n) (hn : n ≤ 8) :
    (r.little (w.reach p) n).toNat = r.number p.num n := by
  induction n generalizing p with
  | zero => rfl
  | succ n ih =>
    have hone : r.Has p.num 1 := hp.mono (Nat.le_refl _) (by omega)
    rw [little, reach_succ, byte_reach hw hone, number]
    cases n with
    | zero =>
      rw [little, toNat_or_shift _ (show (0 : Word).toNat < 2 ^ 56 by decide)]
      rfl
    | succ n =>
      have hup : (p.up 1).num = p.num + 1 := hp.num_up hw.top (by omega)
      have hrest := ih (p := p.up 1) (by rw [hup]; exact hp.mono (by omega) (by omega)) (by omega)
      rw [hup] at hrest
      have hlt : r.number (p.num + 1) (n + 1) < 256 ^ 7 :=
        Nat.lt_of_lt_of_le (number_lt ..) (Nat.pow_le_pow_right (by omega) (by omega))
      rw [toNat_or_shift _ (by rw [hrest]; exact hlt), hrest]

theorem number_setLittle (hw : r.Shows w) (hp : r.Has p.num n) (v : Word) (hn : n ≤ 8) :
    (r.setLittle (w.reach p) n v).number p.num n = v.toNat % 256 ^ n := by
  induction n generalizing r p v with
  | zero => simp [number, Nat.mod_one]
  | succ n ih =>
    have hsame := sameBank_setByte r (w.reach p) v.toUInt8
    have hone : r.Has p.num 1 := hp.mono (Nat.le_refl _) (by omega)
    have hbyte : (v.toUInt8).toNat = v.toNat % 256 := UInt64.toNat_toUInt8 v
    rw [number, setLittle, reach_succ]
    cases n with
    | zero =>
      rw [setLittle, number, cell_setByte hw hone _ hone.1, if_pos rfl, hbyte]
      omega
    | succ n =>
      have hup : (p.up 1).num = p.num + 1 := hp.num_up hw.top (by omega)
      have hhas : (r.setByte (w.reach p) v.toUInt8).Has (p.up 1).num (n + 1) :=
        hsame.has.2 (by rw [hup]; exact hp.mono (by omega) (by omega))
      have hrest := ih (hsame.shows hw) hhas (v >>> 8) (by omega)
      have hshift : (v >>> 8).toNat = v.toNat / 256 := by
        have h8 : (8 : UInt64).toNat % 64 = 8 := rfl
        rw [UInt64.toNat_shiftRight, h8, Nat.shiftRight_eq_div_pow]
      rw [hup] at hrest
      rw [cell_setLittle_of_lt (hsame.shows hw) hhas _ (by rw [hsame.base]; exact hone.1)
        (by omega), cell_setByte hw hone _ hone.1, if_pos rfl, hrest, hshift, hbyte,
        Nat.pow_succ 256 (n + 1), Nat.mul_comm (256 ^ (n + 1)) 256, Nat.mod_mul]

theorem toNat_word (hw : r.Shows w) (hp : r.Has p.num 8) :
    (r.word (w.reach p)).toNat = r.number p.num 8 :=
  toNat_little hw hp (Nat.le_refl _)

/-- A word hangs on its own eight bytes, through whatever window it is read. -/
theorem word_congr {w' : Window} (hw : r.Shows w) (hw' : s.Shows w') (hbank : SameBank r s)
    (hp : r.Has p.num 8) (h : SameOn r s p.num (p.num + 8)) :
    s.word (w'.reach p) = r.word (w.reach p) := by
  apply UInt64.toNat_inj.1
  rw [toNat_word hw' (hbank.has.2 hp), toNat_word hw hp, number_congr h]

theorem sameBank_setWord (r : Ram) (a v : Word) : SameBank r (r.setWord a v) :=
  sameBank_setLittle r a 8 v

theorem cell_setWord_of_lt (hw : r.Shows w) (hp : r.Has p.num 8) (v : Word) {n : Nat}
    (hn : r.base.num ≤ n) (hout : n < p.num ∨ p.num + 8 ≤ n) :
    (r.setWord (w.reach p) v).cell n = r.cell n :=
  cell_setLittle_of_lt hw hp v hn hout

theorem word_setWord (hw : r.Shows w) (hp : r.Has p.num 8) (v : Word) :
    (r.setWord (w.reach p) v).word (w.reach p) = v := by
  have hsame := sameBank_setWord r (w.reach p) v
  apply UInt64.toNat_inj.1
  rw [toNat_word (hsame.shows hw) (hsame.has.2 hp), setWord, number_setLittle hw hp v (by omega)]
  exact Nat.mod_eq_of_lt v.toNat_lt

/-- Storing a word leaves the words apart from it. -/
theorem word_setWord_of_apart (hw : r.Shows w) (hp : r.Has p.num 8) (hq : r.Has q.num 8)
    (hapart : q.num + 8 ≤ p.num ∨ p.num + 8 ≤ q.num) (v : Word) :
    (r.setWord (w.reach p) v).word (w.reach q) = r.word (w.reach q) := by
  have hsame := sameBank_setWord r (w.reach p) v
  have hlow := hq.1
  refine word_congr hw (hsame.shows hw) hsame hq fun n hn hn' => ?_
  exact cell_setWord_of_lt hw hp v (by omega) (by omega)

section Loaded

variable {image : List (Word × Word)}

theorem sameBank_foldl_setWord (r : Ram) (image : List (Word × Word)) :
    SameBank r (image.foldl (fun r (a, v) => r.setWord a v) r) := by
  induction image generalizing r with
  | nil => exact SameBank.refl r
  | cons e image ih =>
    obtain ⟨a, v⟩ := e
    rw [List.foldl_cons]
    exact (sameBank_setWord r a v).trans (ih _)

/-- A word that lies apart from those that are put into RAM stays. -/
theorem word_foldl_setWord_of_apart (hw : r.Shows .identity) (hq : r.Has q.num 8)
    (hin : ∀ e ∈ image, r.Has e.1.toNat 8)
    (hapart : ∀ e ∈ image, q.num + 8 ≤ e.1.toNat ∨ e.1.toNat + 8 ≤ q.num) :
    (image.foldl (fun r (a, v) => r.setWord a v) r).word q.val = r.word q.val := by
  induction image generalizing r with
  | nil => rfl
  | cons e image ih =>
    obtain ⟨a, v⟩ := e
    rw [List.forall_mem_cons] at hin hapart
    have hsame := sameBank_setWord r a v
    have hfirst := word_setWord_of_apart (p := ⟨a⟩) hw hin.1 hq hapart.1 v
    rw [Window.reach_identity, Window.reach_identity] at hfirst
    rw [List.foldl_cons]
    refine (ih (hsame.shows hw) (hsame.has.2 hq) ?_ hapart.2).trans hfirst
    exact fun e he => hsame.has.2 (hin.2 e he)

/-- Words that are put into RAM apart from each other are all found there. -/
theorem word_foldl_setWord (hw : r.Shows .identity) (hin : ∀ e ∈ image, r.Has e.1.toNat 8)
    (hapart : image.Pairwise fun e e' =>
      e.1.toNat + 8 ≤ e'.1.toNat ∨ e'.1.toNat + 8 ≤ e.1.toNat) :
    ∀ e ∈ image, (image.foldl (fun r (a, v) => r.setWord a v) r).word e.1 = e.2 := by
  induction image generalizing r with
  | nil => nofun
  | cons e image ih =>
    obtain ⟨a, v⟩ := e
    rw [List.forall_mem_cons] at hin
    rw [List.pairwise_cons] at hapart
    have hsame := sameBank_setWord r a v
    have hin' : ∀ e ∈ image, (r.setWord a v).Has e.1.toNat 8 :=
      fun e he => hsame.has.2 (hin.2 e he)
    rw [List.forall_mem_cons, List.foldl_cons]
    refine ⟨?_, ih (hsame.shows hw) hin' hapart.2⟩
    have hfirst := word_setWord (p := ⟨a⟩) hw hin.1 v
    rw [Window.reach_identity] at hfirst
    exact (word_foldl_setWord_of_apart (q := ⟨a⟩) (hsame.shows hw) (hsame.has.2 hin.1) hin'
      hapart.1).trans hfirst

end Loaded

/-- Storing the byte that is there changes nothing. -/
theorem setByte_byte (r : Ram) (a : Word) : r.setByte a (r.byte a) = r := by
  have hput : putByte r.bytes (r.offset a) (byteAt r.bytes (r.offset a)) = r.bytes := by
    unfold putByte byteAt
    split
    · exact ByteArray.ext (Array.set_getElem_self _)
    · rfl
  rw [setByte, byte, hput]

theorem toNat_little_lt (r : Ram) (a : Word) (hn : n ≤ 8) : (r.little a n).toNat < 256 ^ n := by
  induction n generalizing a with
  | zero => exact Nat.one_pos
  | succ n ih =>
    have hrest := ih (a + 1) (by omega)
    have hbyte := (r.byte a).toNat_lt
    have hseven : 256 ^ n ≤ 256 ^ 7 := Nat.pow_le_pow_right (by omega) (by omega)
    rw [little, toNat_or_shift _ (by omega), Nat.pow_succ]
    omega

/-- Storing the bytes that are there changes nothing. -/
theorem setLittle_little (r : Ram) (a : Word) (hn : n ≤ 8) :
    r.setLittle a n (r.little a n) = r := by
  induction n generalizing a with
  | zero => rfl
  | succ n ih =>
    have hseven : 256 ^ n ≤ 256 ^ 7 := Nat.pow_le_pow_right (by omega) (by omega)
    have hrest : (r.little (a + 1) n).toNat < 2 ^ 56 :=
      Nat.lt_of_lt_of_le (toNat_little_lt r (a + 1) (by omega)) hseven
    have hnum := toNat_or_shift (r.byte a) hrest
    have hbyte := (r.byte a).toNat_lt
    -- The lowest byte is the first one, and what is left over it are the others.
    have hlow : ((r.byte a).toUInt64 ||| (r.little (a + 1) n <<< 8)).toUInt8 = r.byte a := by
      apply UInt8.toNat_inj.1
      rw [UInt64.toNat_toUInt8, hnum]
      omega
    have hhigh : ((r.byte a).toUInt64 ||| (r.little (a + 1) n <<< 8)) >>> 8 =
        r.little (a + 1) n := by
      apply UInt64.toNat_inj.1
      have h8 : (8 : UInt64).toNat % 64 = 8 := rfl
      rw [UInt64.toNat_shiftRight, h8, Nat.shiftRight_eq_div_pow, hnum]
      omega
    rw [little, setLittle, hlow, hhigh, setByte_byte, ih (a + 1) (by omega)]

/-- Storing the word that is there changes nothing. -/
theorem setWord_word (r : Ram) (a : Word) : r.setWord a (r.word a) = r :=
  setLittle_little r a (Nat.le_refl 8)

/-! ## Storing twice -/

theorem byteAt_of_le {b : ByteArray} {j : Nat} (hj : b.size ≤ j) : byteAt b j = 0 := by
  rw [byteAt, dif_neg (Nat.not_lt.2 hj)]

/-- Byte `j` of the bank is one of the `n` bytes reached from `a` on. -/
def Hits (r : Ram) (j : Nat) (a : Word) : Nat → Prop
  | 0 => False
  | n + 1 => r.offset a = j ∨ r.Hits j (a + 1) n

theorem SameBank.hits (h : SameBank r s) {j : Nat} {a : Word} : s.Hits j a n ↔ r.Hits j a n := by
  induction n generalizing a with
  | zero => exact Iff.rfl
  | succ n ih => rw [Hits, Hits, ih, offset_congr h.size h.home h.gap]

theorem byteAt_setLittle {j : Nat} {a v : Word} (hj : ¬ r.Hits j a n) :
    byteAt (r.setLittle a n v).bytes j = byteAt r.bytes j := by
  induction n generalizing r a v with
  | zero => rfl
  | succ n ih =>
    rw [Hits, not_or] at hj
    have hrest : ¬ (r.setByte a v.toUInt8).Hits j (a + 1) n := by
      rw [(sameBank_setByte r a v.toUInt8).hits]
      exact hj.2
    rw [setLittle, ih hrest]
    show byteAt (putByte r.bytes (r.offset a) v.toUInt8) j = _
    rw [byteAt_putByte, if_neg fun h => hj.1 h.1]

/-- A bank is known by its place and its bytes. -/
theorem SameBank.eq_of_cells (h : SameBank r s)
    (hcell : ∀ n, r.base.num ≤ n → s.cell n = r.cell n) : s = r := by
  have hdata : s.bytes = r.bytes := by
    refine ByteArray.ext (Array.ext h.size fun j hs hr => ?_)
    have hj := hcell (r.base.num + j) (Nat.le_add_right _ _)
    rw [cell, cell, h.base, Nat.add_sub_cancel_left, byteAt_eq_getD, byteAt_eq_getD,
      Array.getElem?_eq_getElem hs, Array.getElem?_eq_getElem hr] at hj
    exact hj
  obtain ⟨hbase, -, hhome, hgap⟩ := h
  cases r
  cases s
  cases hbase
  cases hhome
  cases hgap
  cases hdata
  rfl

/-- Banks that differ only where something is stored do not differ after it. -/
theorem setLittle_congr {a v : Word} (h : SameBank r s)
    (hbytes : ∀ j, ¬ r.Hits j a n → byteAt s.bytes j = byteAt r.bytes j) :
    s.setLittle a n v = r.setLittle a n v := by
  induction n generalizing r s a v with
  | zero =>
    refine h.eq_of_cells fun k _ => ?_
    rw [cell, cell, h.base]
    exact hbytes _ id
  | succ n ih =>
    have hone : SameBank (r.setByte a v.toUInt8) (s.setByte a v.toUInt8) :=
      ((sameBank_setByte r a _).symm.trans h).trans (sameBank_setByte s a _)
    refine ih hone fun j hj => ?_
    rw [(sameBank_setByte r a v.toUInt8).hits] at hj
    show byteAt (putByte s.bytes (s.offset a) _) j = byteAt (putByte r.bytes (r.offset a) _) j
    have hsize : s.bytes.size = r.bytes.size := h.size
    rw [byteAt_putByte, byteAt_putByte, offset_congr h.size h.home h.gap, hsize]
    by_cases hat : r.offset a = j
    · by_cases hin : r.offset a < r.bytes.size
      · rw [if_pos ⟨hat, hin⟩, if_pos ⟨hat, hin⟩]
      · rw [if_neg fun c => hin c.2, if_neg fun c => hin c.2, byteAt_of_le (by omega),
          byteAt_of_le (by omega)]
    · rw [if_neg fun c => hat c.1, if_neg fun c => hat c.1]
      exact hbytes j fun hh => hh.elim hat hj

/-- Of two stores to one place the second one counts. -/
theorem setWord_setWord (r : Ram) (a u v : Word) :
    (r.setWord a u).setWord a v = r.setWord a v :=
  setLittle_congr (sameBank_setLittle r a 8 u) fun _ hj => byteAt_setLittle hj

/-- Whatever was stored in between, storing what was there before brings the bank back. -/
theorem setWord_restore (r : Ram) (a u : Word) :
    (r.setWord a u).setWord a (r.word a) = r := by
  rw [setWord_setWord, setWord_word]

/-! ## Zeroing -/

theorem sameBank_clear (r : Ram) (a : Word) (n : Nat) : SameBank r (r.clear a n) :=
  ⟨rfl, r.size_clear a n, rfl, rfl⟩

theorem cell_clear (hw : r.Shows w) (hp : r.Has p.num n) {j : Nat} (hj : r.base.num ≤ j) :
    (r.clear (w.reach p) n).cell j = if p.num ≤ j ∧ j < p.num + n then 0 else r.cell j := by
  rcases Nat.eq_zero_or_pos n with rfl | hn
  · rw [if_neg (by omega), clear, zeroRun_zero]
  have hlo := hp.1
  have hhi : p.num + n ≤ r.base.num + r.bytes.size := hp.2
  show byteAt (zeroRun r.bytes (r.offset (w.reach p)) n) (j - r.base.num) = _
  rw [hw.offset_reach p (hp.mono (Nat.le_refl _) (by omega)), byteAt_zeroRun _ _ _ _ (by omega)]
  by_cases h : p.num ≤ j ∧ j < p.num + n
  · rw [if_pos ⟨by omega, by omega⟩, if_pos h]
  · rw [if_neg (by omega), if_neg h]
    rfl

theorem number_eq_zero (h : ∀ j, a ≤ j → j < a + n → r.cell j = 0) : r.number a n = 0 := by
  induction n generalizing a with
  | zero => rfl
  | succ n ih =>
    rw [number, h a (Nat.le_refl _) (by omega), ih fun j hj hj' => h j (by omega) (by omega)]
    rfl

end Ram

/-! ## Entries of a table -/

namespace Tables

variable {r s : Ram} {w w' : Window} {t u : PhysAddr} {i j : Nat}

theorem entryPlace_eq (w : Window) (t : PhysAddr) (i : Nat) :
    entryPlace w t i = w.reach (t.up (8 * i)) :=
  (w.reach_up t (8 * i)).symm

/-- The eight bytes of an entry. -/
theorem has_entry (hw : r.Shows w) (ht : r.Has t.num 4096) (hi : i < 512) :
    (t.up (8 * i)).num = t.num + 8 * i ∧ r.Has (t.num + 8 * i) 8 :=
  ⟨ht.num_up hw.top (by omega), ht.mono (by omega) (by omega)⟩

/-- The entries of a table hang on the table's own bytes, through whatever window. -/
theorem entry_congr (hw : r.Shows w) (hw' : s.Shows w') (hbank : Ram.SameBank r s)
    (ht : r.Has t.num 4096) (hi : i < 512) (h : Ram.SameOn r s t.num (t.num + 4096)) :
    entry s w' t i = entry r w t i := by
  obtain ⟨hnum, hhas⟩ := has_entry hw ht hi
  rw [entry, entry, entryPlace_eq, entryPlace_eq]
  refine congrArg Entry.mk (Ram.word_congr hw hw' hbank (by rw [hnum]; exact hhas) ?_)
  rw [hnum]
  exact h.mono (by omega) (by omega)

theorem entry_setWord_self (hw : r.Shows w) (ht : r.Has t.num 4096) (hi : i < 512) (v : Word) :
    entry (r.setWord (entryPlace w t i) v) w t i = ⟨v⟩ := by
  obtain ⟨hnum, hhas⟩ := has_entry hw ht hi
  rw [entry, entryPlace_eq, Ram.word_setWord hw (by rw [hnum]; exact hhas)]

/-- Storing one entry leaves every other entry of every table alone. -/
theorem entry_setWord_of_ne (hw : r.Shows w) (ht : r.Has t.num 4096) (hu : r.Has u.num 4096)
    (hta : t.num % 4096 = 0) (hua : u.num % 4096 = 0) (hi : i < 512) (hj : j < 512)
    (hne : u ≠ t ∨ j ≠ i) (v : Word) :
    entry (r.setWord (entryPlace w t i) v) w u j = entry r w u j := by
  obtain ⟨hnum, hhas⟩ := has_entry hw ht hi
  obtain ⟨hnum', hhas'⟩ := has_entry hw hu hj
  have hapart : u.num + 8 * j + 8 ≤ t.num + 8 * i ∨ t.num + 8 * i + 8 ≤ u.num + 8 * j := by
    rcases hne with hne | hne
    · have : u.num ≠ t.num := fun h => hne (PhysAddr.num_inj h)
      omega
    · omega
  rw [entry, entry, entryPlace_eq, entryPlace_eq]
  refine congrArg Entry.mk (Ram.word_setWord_of_apart hw (by rw [hnum]; exact hhas)
    (by rw [hnum']; exact hhas') ?_ v)
  rw [hnum, hnum']
  exact hapart

/-- A zeroed table holds empty entries. -/
theorem entry_of_zero (hw : r.Shows w) (ht : r.Has t.num 4096) (hi : i < 512)
    (h : ∀ n, t.num ≤ n → n < t.num + 4096 → r.cell n = 0) : entry r w t i = .empty := by
  obtain ⟨hnum, hhas⟩ := has_entry hw ht hi
  rw [entry, entryPlace_eq, Entry.empty, Entry.mk.injEq]
  apply UInt64.toNat_inj.1
  rw [Ram.toNat_word hw (by rw [hnum]; exact hhas), hnum,
    Ram.number_eq_zero fun n hn hn' => h n (by omega) (by omega)]
  rfl

end Tables

end HighHalf
