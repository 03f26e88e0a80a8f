import Mathlib.Data.List.Basic
import HighHalf.Serial.Console
import HighHalf.Proofs.Address.Masks
import HighHalf.Proofs.Board.Steps

/-!
# What goes over the serial line

To send a byte the driver reads the status until the queue has room and writes the byte right
then, so the accesses to the device fall into turns: some reads that find the queue full, one that
finds room, one write. Sending bytes is one turn after the other, whatever the line answers in
between, and the bytes written are those that were to be sent, with a carriage return before each
line feed.

## Main definitions

* `SerialLine.Carries`: accesses that are the turns of some bytes
* `SerialLine.Transmission`: what can be seen of such accesses

## Main results

* `Uart.run_sendAll`: sending bytes ends, and makes the turns of the bytes
* `SerialConsole.transmits`: what writing and probing send
-/

namespace HighHalf

/-- The address and value of a status that was read. -/
def SerialAccess.heard? : SerialAccess → Option (Word × UInt32)
  | .status a v => some (a, v)
  | .data _ _ => none

/-- The address and value of a byte that was written. -/
def SerialAccess.written? : SerialAccess → Option (Word × UInt8)
  | .status _ _ => none
  | .data a v => some (a, v)

/-! ## Bytes of a text -/

theorem toList_loop (bytes : ByteArray) (i : Nat) (done : List UInt8) :
    ByteArray.toList.loop bytes i done = done.reverse ++ bytes.data.toList.drop i := by
  fun_induction ByteArray.toList.loop bytes i done with
  | case1 i done hlt ih =>
    have hlength : i < bytes.data.toList.length := hlt
    have hget : bytes.get! i = bytes.data.toList[i] := getElem!_pos bytes.data i hlt
    rw [ih, hget, List.reverse_cons, List.append_assoc, List.singleton_append,
      ← List.drop_eq_getElem_cons hlength]
  | case2 i done hlt =>
    rw [List.drop_eq_nil_of_le (Nat.le_of_not_lt hlt), List.append_nil]

theorem toList_bytes (bytes : ByteArray) : bytes.toList = bytes.data.toList := by
  rw [ByteArray.toList, toList_loop, List.reverse_nil, List.nil_append, List.drop_zero]

/-- The bytes of two texts in a row. -/
theorem toList_toUTF8_append (s t : String) :
    (s ++ t).toUTF8.toList = s.toUTF8.toList ++ t.toUTF8.toList := by
  simp only [toList_bytes, String.toUTF8, String.toByteArray_append, ByteArray.data_append,
    Array.toList_append]

/-! ## The accesses of a line -/

namespace SerialLine

variable {line : SerialLine} {base : Word} {bytes : List UInt8} {made : List SerialAccess}
  {v : UInt8} {i j k m n : Nat}

/-- Every sequence of status values in which the queue has room again and again is a line. -/
theorem exists_of_drains (status : Nat → UInt32)
    (h : ∀ n, ∃ k, status (n + k) &&& queueFull = 0) : ∃ line : SerialLine, line.status = status :=
  ⟨⟨status, fun n => Nat.find (h n), fun n => ⟨_, Nat.le_refl _, Nat.find_spec (h n)⟩⟩, rfl⟩

/-- Reads `n` and on of the status register at `a`, `k` of them. -/
def polls (line : SerialLine) (a : Word) (n k : Nat) : List SerialAccess :=
  (List.range' n k).map fun i => .status a (line.status i)

@[simp] theorem length_polls (line : SerialLine) (a : Word) (n k : Nat) :
    (line.polls a n k).length = k := by
  rw [polls, List.length_map, List.length_range']

theorem polls_append (line : SerialLine) (a : Word) (n j k : Nat) :
    line.polls a n j ++ line.polls a (n + j) k = line.polls a n (j + k) := by
  rw [polls, polls, polls, ← List.map_append, List.range'_append_1]

theorem getElem?_polls (line : SerialLine) (a : Word) (n : Nat) (h : i < k) :
    (line.polls a n k)[i]? = some (.status a (line.status (n + i))) := by
  rw [polls, List.getElem?_map, List.getElem?_range' h, Nat.one_mul, Option.map_some]

/-- The turn of one byte, from read `n` of the status on: `k` reads that are waited through, the
read after them, and the write. -/
def turn (line : SerialLine) (base : Word) (n k : Nat) (v : UInt8) : List SerialAccess :=
  line.polls (base + 0x18) n (k + 1) ++ [.data base v]

/-- These accesses are the turns of `bytes` from read `n` of the status on, with `m` reads. -/
inductive Carries (line : SerialLine) (base : Word) :
    Nat → List UInt8 → Nat → List SerialAccess → Prop
  | done (n : Nat) : Carries line base n [] 0 []
  | byte {n k m : Nat} {v : UInt8} {bytes : List UInt8} {made : List SerialAccess} :
    (∀ j < k, line.status (n + j) &&& queueFull ≠ 0) →
    line.status (n + k) &&& queueFull = 0 →
    Carries line base (n + (k + 1)) bytes m made →
    Carries line base n (v :: bytes) (k + 1 + m) (line.turn base n k v ++ made)

/-- What can be seen of accesses that send `bytes` to the device at `base`, from read `n` of the
status on, with `m` reads. -/
structure Transmission (line : SerialLine) (base : Word) (n : Nat) (bytes : List UInt8) (m : Nat)
    (made : List SerialAccess) : Prop where
  /-- The bytes are written in order. -/
  written : made.filterMap SerialAccess.written? = bytes.map (base, ·)
  /-- Every write comes right after a read that found room. -/
  guarded : ∀ i a v, made[i]? = some (.data a v) →
    ∃ j s, i = j + 1 ∧ made[j]? = some (.status (base + 0x18) s) ∧ s &&& queueFull = 0
  /-- Every read that found room is used at once. -/
  prompt : ∀ i a s, made[i]? = some (.status a s) → s &&& queueFull = 0 →
    ∃ v, made[i + 1]? = some (.data base v)
  /-- The reads are those that the line has next. -/
  heard : made.filterMap SerialAccess.heard? =
    (List.range' n m).map fun i => (base + 0x18, line.status i)

/-- An access among those of a turn and all later ones. -/
theorem getElem?_turn (line : SerialLine) (base : Word) (n k : Nat) (v : UInt8)
    (made : List SerialAccess) (i : Nat) :
    (line.turn base n k v ++ made)[i]? =
      if i ≤ k then some (.status (base + 0x18) (line.status (n + i)))
      else if i = k + 1 then some (.data base v)
      else made[i - (k + 2)]? := by
  rw [turn, List.append_assoc, List.getElem?_append, length_polls, List.singleton_append]
  by_cases hpoll : i ≤ k
  · rw [if_pos (by omega), if_pos hpoll, getElem?_polls _ _ _ (by omega)]
  · rw [if_neg (by omega), if_neg hpoll]
    by_cases hwrite : i = k + 1
    · rw [if_pos hwrite, hwrite, Nat.sub_self, List.getElem?_cons_zero]
    · rw [if_neg hwrite, show i - (k + 1) = i - (k + 2) + 1 by omega, List.getElem?_cons_succ]

theorem Carries.written (h : Carries line base n bytes m made) :
    made.filterMap SerialAccess.written? = bytes.map (base, ·) := by
  induction h with
  | done n => rfl
  | @byte n k m v bytes made hfull hroom hrest ih =>
    have hpolls : (line.polls (base + 0x18) n (k + 1)).filterMap SerialAccess.written? = [] := by
      rw [polls, List.filterMap_map, List.filterMap_eq_nil_iff]
      exact fun _ _ => rfl
    rw [turn, List.filterMap_append, List.filterMap_append, hpolls, ih]
    rfl

theorem Carries.heard (h : Carries line base n bytes m made) :
    made.filterMap SerialAccess.heard? =
      (List.range' n m).map fun i => (base + 0x18, line.status i) := by
  induction h with
  | done n => rfl
  | @byte n k m v bytes made hfull hroom hrest ih =>
    have hpolls : (line.polls (base + 0x18) n (k + 1)).filterMap SerialAccess.heard? =
        (List.range' n (k + 1)).map fun i => (base + 0x18, line.status i) := by
      rw [polls, List.filterMap_map]
      exact congrFun List.filterMap_eq_map _
    have hwrite : [SerialAccess.data base v].filterMap SerialAccess.heard? = [] := rfl
    rw [turn, List.filterMap_append, List.filterMap_append, hpolls, hwrite, List.append_nil, ih,
      ← List.map_append, List.range'_append_1]

theorem Carries.guarded (h : Carries line base n bytes m made) {a : Word}
    (hi : made[i]? = some (.data a v)) :
    ∃ j s, i = j + 1 ∧ made[j]? = some (.status (base + 0x18) s) ∧ s &&& queueFull = 0 := by
  induction h generalizing i with
  | done n => cases hi
  | @byte n k m w bytes made hfull hroom hrest ih =>
    rw [getElem?_turn] at hi
    split at hi
    · cases hi
    · rename_i hpoll
      split at hi
      · rename_i hwrite
        exact ⟨k, line.status (n + k), hwrite, by rw [getElem?_turn, if_pos (Nat.le_refl k)], hroom⟩
      · rename_i hwrite
        obtain ⟨j, s, hj, hread, hs⟩ := ih hi
        refine ⟨k + 2 + j, s, by omega, ?_, hs⟩
        rw [getElem?_turn, if_neg (by omega), if_neg (by omega), Nat.add_sub_cancel_left, hread]

theorem Carries.prompt (h : Carries line base n bytes m made) {a : Word} {s : UInt32}
    (hi : made[i]? = some (.status a s)) (hs : s &&& queueFull = 0) :
    ∃ v, made[i + 1]? = some (.data base v) := by
  induction h generalizing i with
  | done n => cases hi
  | @byte n k m w bytes made hfull hroom hrest ih =>
    rw [getElem?_turn] at hi
    split at hi
    · rename_i hpoll
      cases hi
      -- Only the last read of a turn finds room.
      have hlast : i = k := by
        by_contra hne
        exact hfull i (by omega) hs
      refine ⟨w, ?_⟩
      rw [getElem?_turn, if_neg (by omega), if_pos (by omega)]
    · split at hi
      · cases hi
      · obtain ⟨v, hv⟩ := ih hi
        refine ⟨v, ?_⟩
        rw [getElem?_turn, if_neg (by omega), if_neg (by omega), ← hv]
        congr 1
        omega

theorem Carries.transmission (h : Carries line base n bytes m made) :
    Transmission line base n bytes m made :=
  ⟨h.written, fun _ _ _ => h.guarded, fun _ _ _ => h.prompt, h.heard⟩

end SerialLine

/-! ## Sending -/

/-- The line after `k` more reads of the status and the accesses `made`. -/
def SerialBus.after (b : SerialBus) (k : Nat) (made : List SerialAccess) : SerialBus :=
  { b with reads := b.reads + k, accesses := b.accesses ++ made.toArray }

theorem SerialBus.after_after (b : SerialBus) (k m : Nat) (made made' : List SerialAccess) :
    (b.after k made).after m made' = b.after (k + m) (made ++ made') := by
  simp only [after, Nat.add_assoc, Array.append_assoc, List.append_toArray]

theorem SerialBus.sent_eq (b : SerialBus) :
    b.sent = b.accesses.toList.filterMap SerialAccess.written? := by
  refine congrArg (List.filterMap · b.accesses.toList) (funext fun x => ?_)
  cases x <;> rfl

theorem SerialBus.sent_after (b : SerialBus) (k : Nat) (made : List SerialAccess) :
    (b.after k made).sent = b.sent ++ made.filterMap SerialAccess.written? := by
  rw [sent_eq, sent_eq, after, Array.toList_append, List.filterMap_append]

theorem SerialBus.push_eq_after (b : SerialBus) (x : SerialAccess) :
    { b with accesses := b.accesses.push x } = b.after 0 [x] := by
  rw [after, ← Array.append_singleton]
  rfl

namespace Uart

open SerialLine

variable {u : Uart} {base : Word} {b : SerialBus}

theorem run_readStatus (a : Word) (b : SerialBus) :
    readStatus a b = .ok (b.line.status b.reads) (b.after 1 (b.line.polls a b.reads 1)) := by
  show EStateM.Result.ok _ _ = _
  rw [← Array.append_singleton]
  rfl

/-- Waiting ends at the first read that finds room. -/
theorem run_awaitRoom (a : Word) {n : Nat}
    (h : ∃ k ≤ n, b.line.status (b.reads + k) &&& queueFull = 0) :
    ∃ k, (∀ j < k, b.line.status (b.reads + j) &&& queueFull ≠ 0) ∧
      b.line.status (b.reads + k) &&& queueFull = 0 ∧
      awaitRoom a n b = .ok () (b.after (k + 1) (b.line.polls a b.reads (k + 1))) := by
  induction n generalizing b with
  | zero =>
    obtain ⟨k, hk, hroom⟩ := h
    obtain rfl := Nat.le_zero.1 hk
    refine ⟨0, nofun, hroom, ?_⟩
    rw [awaitRoom, run_bind_ok (run_readStatus a b)]
    rfl
  | succ n ih =>
    rw [awaitRoom, run_bind_ok (run_readStatus a b)]
    by_cases hnow : b.line.status b.reads &&& queueFull = 0
    · refine ⟨0, nofun, hnow, ?_⟩
      rw [if_neg (not_not_intro hnow)]
      rfl
    · rw [if_pos hnow]
      -- The room that is known of lies behind the read just made.
      obtain ⟨k, hk, hroom⟩ := h
      have hk0 : k ≠ 0 := by
        rintro rfl
        exact hnow hroom
      have hlater : b.reads + 1 + (k - 1) = b.reads + k := by omega
      obtain ⟨k', hfull, hroom', hrun⟩ := ih (b := b.after 1 (b.line.polls a b.reads 1))
        ⟨k - 1, by omega, by rwa [← hlater] at hroom⟩
      have hreads : b.reads + 1 + k' = b.reads + (k' + 1) := by omega
      refine ⟨k' + 1, fun j hj => ?_, by rwa [← hreads], ?_⟩
      · cases j with
        | zero => exact hnow
        | succ j =>
          have hj' : b.reads + 1 + j = b.reads + (j + 1) := by omega
          rw [← hj']
          exact hfull j (by omega)
      · have hpolls := b.line.polls_append a b.reads 1 (k' + 1)
        rw [hrun, SerialBus.after_after, Nat.add_comm 1 (k' + 1)]
        rw [Nat.add_comm 1 (k' + 1)] at hpolls
        rw [← hpolls]
        rfl

/-- The turn of one byte. -/
theorem run_sendByte (hready : u.ready = true) (hbase : base.toNat + 0x18 < 2 ^ 64) (v : UInt8)
    (b : SerialBus) :
    ∃ k, (∀ j < k, b.line.status (b.reads + j) &&& queueFull ≠ 0) ∧
      b.line.status (b.reads + k) &&& queueFull = 0 ∧
      u.sendByte base v b = .ok () (b.after (k + 1) (b.line.turn base b.reads k v)) := by
  have hstatus : Word.add base statusOffset = .ok (base + 0x18) := Word.add_of_lt hbase
  have hdata : Word.add base dataOffset = .ok base := by
    rw [Word.add_eq_ok_iff]
    rfl
  obtain ⟨k, hfull, hroom, hrun⟩ := run_awaitRoom (base + 0x18) (b.line.drains b.reads)
  refine ⟨k, hfull, hroom, ?_⟩
  rw [sendByte, if_pos hready, hstatus, hdata, run_bind_ok (run_check _ b),
    run_bind_ok (run_check _ b), run_bind_ok (run_get b), run_bind_ok hrun, turn,
    ← Nat.add_zero (k + 1), ← SerialBus.after_after, Nat.add_zero]
  exact congrArg (EStateM.Result.ok ()) (SerialBus.push_eq_after _ _)

/-- Sending bytes makes their turns, one after the other. -/
theorem run_sendAll (hready : u.ready = true) (hbase : base.toNat + 0x18 < 2 ^ 64)
    (bytes : List UInt8) (b : SerialBus) :
    ∃ m made, u.sendAll base bytes b = .ok () (b.after m made) ∧
      b.line.Carries base b.reads bytes m made := by
  induction bytes generalizing b with
  | nil => exact ⟨0, [], rfl, .done _⟩
  | cons v bytes ih =>
    obtain ⟨k, hfull, hroom, hfirst⟩ := run_sendByte hready hbase v b
    obtain ⟨m, made, hrest, hcarries⟩ := ih (b.after (k + 1) (b.line.turn base b.reads k v))
    refine ⟨k + 1 + m, b.line.turn base b.reads k v ++ made, ?_, .byte hfull hroom hcarries⟩
    rw [sendAll, run_bind_ok hfirst, hrest, SerialBus.after_after]

/-- A driver that is not set up touches nothing. -/
theorem run_sendAll_unready (hready : u.ready = false) (bytes : List UInt8) (b : SerialBus) :
    u.sendAll base bytes b = .ok () b := by
  induction bytes with
  | nil => rfl
  | cons v bytes ih =>
    have hskip : u.sendByte base v b = .ok () b := by
      rw [sendByte, if_neg (by simp [hready])]
      rfl
    rw [sendAll, run_bind_ok hskip, ih]

/-- Bytes may be sent in two goes. -/
theorem sendAll_append (u : Uart) (base : Word) (xs ys : List UInt8) :
    u.sendAll base (xs ++ ys) = (do u.sendAll base xs; u.sendAll base ys) := by
  induction xs with
  | nil => rw [sendAll, List.nil_append, pure_bind]
  | cons v xs ih => rw [List.cons_append, sendAll, sendAll, ih, bind_assoc]

/-- Sending a string of bytes sends each line feed behind a carriage return. -/
theorem run_send (hready : u.ready = true) (hbase : base.toNat + 0x18 < 2 ^ 64)
    (bytes : List UInt8) (b : SerialBus) :
    ∃ m made, u.send base bytes b = .ok () (b.after m made) ∧
      b.line.Transmission base b.reads (bytes.flatMap expand) m made := by
  obtain ⟨m, made, hrun, hcarries⟩ := run_sendAll hready hbase (bytes.flatMap expand) b
  exact ⟨m, made, hrun, hcarries.transmission⟩

theorem send_append (u : Uart) (base : Word) (xs ys : List UInt8) :
    u.send base (xs ++ ys) = (do u.send base xs; u.send base ys) := by
  rw [send, List.flatMap_append, sendAll_append]
  rfl

theorem write_append (u : Uart) (s t : String) :
    u.write (s ++ t) = (do u.write s; u.write t) := by
  rw [write, toList_toUTF8_append, send_append]
  rfl

theorem probe_append (u : Uart) (base : Word) (xs ys : List UInt8) :
    u.probe base (xs ++ ys) = (do let _ ← u.probe base xs; u.probe base ys) := by
  unfold probe
  cases u.ready with
  | false => rfl
  | true =>
    rw [if_pos rfl, if_pos rfl, if_pos rfl, send_append, bind_assoc, bind_assoc]
    congr 1

end Uart

/-! ## The console of the kernel -/

namespace SerialConsole

variable {α β : Type}

theorem run_drive_ok {x : Uart → SerialM α} {c : SerialConsole} {a : α} {b : SerialBus}
    (h : x c.driver c.bus = .ok a b) : drive x c = .ok a { c with bus := b } := by
  rw [drive, h]

/-- The driver stays the same, so it may act in two goes. -/
theorem drive_bind (x : Uart → SerialM α) (y : Uart → SerialM β) :
    (do let _ ← drive x; drive y) = drive fun u => (do let _ ← x u; y u) := by
  funext c
  show (drive x >>= fun _ => drive y) c = _
  rw [run_bind, drive, drive, run_bind]
  cases x c.driver c.bus with
  | ok a b => rfl
  | error e b => rfl

theorem write_append (s t : String) : (do write s; write t) = write (s ++ t) :=
  (drive_bind _ _).trans (congrArg drive (funext fun u => (u.write_append s t).symm))

theorem probe_append (base : Word) (s t : List UInt8) :
    (do let _ ← probe base s; probe base t) = probe base (s ++ t) :=
  (drive_bind _ _).trans (congrArg drive (funext fun u => (u.probe_append base s t).symm))

/-- Every sequence of status values with room again and again is a line, and on every line:
writing sends a text to the device that the driver is kept at, probing sends bytes to the device
that is asked for, and both leave the driver as it is. What is sent are the bytes in order, a
carriage return before each line feed, and every byte is written right after a read of the status
that found room. Two texts in a row are sent like one. A driver that is not set up touches
nothing, and says so when it is to probe. -/
theorem transmits :
    (∀ status : Nat → UInt32, (∀ n, ∃ k, status (n + k) &&& queueFull = 0) →
      ∃ line : SerialLine, line.status = status) ∧
    (∀ c : SerialConsole, c.driver.ready = true →
      (∀ text : String, c.driver.base.toNat + 0x18 < 2 ^ 64 →
        ∃ m made, write text c = .ok () { c with bus := c.bus.after m made } ∧
          c.bus.line.Transmission c.driver.base c.bus.reads
            (text.toUTF8.toList.flatMap fun v => if v = 10 then [13, 10] else [v]) m made) ∧
      ∀ (base : Word) (bytes : List UInt8), base.toNat + 0x18 < 2 ^ 64 →
        ∃ m made, probe base bytes c = .ok true { c with bus := c.bus.after m made } ∧
          c.bus.line.Transmission base c.bus.reads
            (bytes.flatMap fun v => if v = 10 then [13, 10] else [v]) m made) ∧
    (∀ s t : String, (do write s; write t) = write (s ++ t)) ∧
    (∀ (base : Word) (s t : List UInt8),
      (do let _ ← probe base s; probe base t) = probe base (s ++ t)) ∧
    ∀ c : SerialConsole, c.driver.ready = false →
      ∀ (text : String) (base : Word) (bytes : List UInt8),
        write text c = .ok () c ∧ probe base bytes c = .ok false c := by
  refine ⟨SerialLine.exists_of_drains,
    fun c hready => ⟨fun text hbase => ?_, fun base bytes hbase => ?_⟩, write_append, probe_append,
    fun c hready text base bytes => ⟨?_, ?_⟩⟩
  · obtain ⟨m, made, hrun, hsent⟩ := Uart.run_send hready hbase text.toUTF8.toList c.bus
    exact ⟨m, made, run_drive_ok hrun, hsent⟩
  · obtain ⟨m, made, hrun, hsent⟩ := Uart.run_send hready hbase bytes c.bus
    have hprobe : c.driver.probe base bytes c.bus = .ok true (c.bus.after m made) := by
      rw [Uart.probe, if_pos hready]
      exact run_bind_ok hrun
    exact ⟨m, made, run_drive_ok hprobe, hsent⟩
  · exact run_drive_ok (Uart.run_sendAll_unready hready _ c.bus)
  · have hprobe : c.driver.probe base bytes c.bus = .ok false c.bus := by
      rw [Uart.probe, if_neg (by simp [hready])]
      rfl
    exact run_drive_ok hprobe

/-- A line that is full for two reads before each byte, and a driver that is set up. -/
theorem transmits_sample :
    ∃ (c : SerialConsole) (b b' : SerialBus), c.driver.ready = true ∧ c.bus.sent = [] ∧
      write "a\n" c = .ok () { c with bus := b } ∧
      b.sent = [(0x9000000, 97), (0x9000000, 13), (0x9000000, 10)] ∧
      probe 0xFFFF800009000000 [98] c = .ok true { c with bus := b' } ∧
      b'.sent = [(0xFFFF800009000000, 98)] := by
  obtain ⟨-, hready, -, -, -⟩ := transmits
  have hc := hready ⟨⟨0x9000000, true⟩, { line := .slow 0x90 2 (by decide) }⟩ rfl
  obtain ⟨m, made, hwrite, hsent⟩ := hc.1 "a\n" (by decide)
  obtain ⟨m', made', hprobe, hsent'⟩ := hc.2 0xFFFF800009000000 [98] (by decide)
  refine ⟨_, _, _, rfl, rfl, hwrite, ?_, hprobe, ?_⟩
  · have hbytes : "a\n".toUTF8.toList = [97, 10] := by
      rw [toList_bytes]
      rfl
    rw [SerialBus.sent_after, hsent.written, hbytes]
    rfl
  · rw [SerialBus.sent_after, hsent'.written]
    rfl

end SerialConsole

end HighHalf
