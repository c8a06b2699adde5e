import Ls2kMorse.I2c.Driver
import Mathlib.Logic.Function.Basic

/-!
# A byte memory on the bus

An I2C memory with one-byte addresses chooses its direction by bit 0 of the address
byte behind a START.  The driver sends the address as it was given, in the reading
message of `i2c_read`, too: the line that would set bit 0 from `I2C_M_RD` is
commented out.  The memory is then left waiting for bytes while the driver reads a
bus that nobody drives, and takes the ones on the line for an address and for data.

Main results:

- Theorem `i2cWrite_stores`: `i2c_write` stores its buffer at the data address and
  leaves the other bytes alone.
- Theorem `i2cRead_undriven`: `i2c_read` finds only ones, and stores all but the first.
- Theorem `i2c_write_read_iff`: which buffers come back.
-/

namespace Ls2kMorse
namespace I2c

/-! ## The memory -/

/-- What the memory takes the next byte for. -/
inductive Mode where
  | idle
  | address
  | store
  | fetch
deriving Repr, DecidableEq

/-- A memory of 256 bytes; its chip address leaves bit 0 to the direction. -/
structure Memory where
  chip : UInt8
  chip_even : chip &&& 1 = 0
  mem : UInt8 → UInt8
  pointer : UInt8
  mode : Mode

/-- A byte clocked in: in write mode it is the new pointer or is stored at it. -/
def Memory.receive (m : Memory) (b : UInt8) : Memory :=
  match m.mode with
  | .address => { m with pointer := b, mode := .store }
  | .store => { m with mem := Function.update m.mem m.pointer b, pointer := m.pointer + 1 }
  | .idle | .fetch => m

/-- The memory as a slave: it acknowledges its chip address and what it takes in.  Outside
`fetch` mode it drives no byte; what it then takes in is the released line. -/
def memoryBus : Bus Memory where
  start m b :=
    if b = m.chip then (true, { m with mode := .address })
    else if b = m.chip ||| 1 then (true, { m with mode := .fetch })
    else (false, { m with mode := .idle })
  write m b := (m.mode == .address || m.mode == .store, m.receive b)
  read m _ :=
    match m.mode with
    | .fetch => (m.mem m.pointer, { m with pointer := m.pointer + 1 })
    | .idle | .address | .store => (0xFF, m.receive 0xFF)
  stop m := (0, { m with mode := .idle })

/-- Bytes stored one after the other. -/
def storeAll (mem : UInt8 → UInt8) (pointer : UInt8) : List UInt8 → UInt8 → UInt8
  | [] => mem
  | b :: bs => storeAll (Function.update mem pointer b) (pointer + 1) bs

theorem toNat_succ {x : UInt8} (h : x.toNat < 255) : (x + 1).toNat = x.toNat + 1 := by
  have hone : (1 : UInt8).toNat = 1 := rfl
  rw [UInt8.toNat_add, hone]
  exact Nat.mod_eq_of_lt (by omega)

/-- The bytes outside a range that does not wrap keep their value. -/
theorem storeAll_outside {mem : UInt8 → UInt8} {pointer : UInt8} {bs : List UInt8}
    (hwrap : pointer.toNat + bs.length ≤ 256) {x : UInt8}
    (hx : ¬ (pointer.toNat ≤ x.toNat ∧ x.toNat < pointer.toNat + bs.length)) :
    storeAll mem pointer bs x = mem x := by
  induction bs generalizing mem pointer with
  | nil => rfl
  | cons b bs ih =>
      rw [List.length_cons] at hwrap hx
      have hne : x ≠ pointer := by
        rintro rfl
        omega
      rw [storeAll]
      cases bs with
      | nil => exact Function.update_of_ne hne b mem
      | cons b' bs =>
          rw [List.length_cons] at hwrap hx
          have hnext : (pointer + 1).toNat = pointer.toNat + 1 := toNat_succ (by omega)
          rw [ih (by rw [hnext, List.length_cons]; omega)
            (by rw [hnext, List.length_cons]; omega)]
          exact Function.update_of_ne hne b mem

/-- The bytes of such a range are those stored. -/
theorem storeAll_inside {mem : UInt8 → UInt8} {pointer : UInt8} {bs : List UInt8}
    (hwrap : pointer.toNat + bs.length ≤ 256) {i : Nat} {b : UInt8} (hi : bs[i]? = some b) :
    storeAll mem pointer bs (pointer + UInt8.ofNat i) = b := by
  induction bs generalizing mem pointer i with
  | nil => simp at hi
  | cons b' bs ih =>
      rw [List.length_cons] at hwrap
      rw [storeAll]
      cases i with
      | zero =>
          obtain rfl : b' = b := by simpa using hi
          have hzero : pointer + UInt8.ofNat 0 = pointer := by simp
          rw [hzero]
          cases bs with
          | nil => exact Function.update_self pointer b' mem
          | cons b'' bs =>
              rw [List.length_cons] at hwrap
              have hnext : (pointer + 1).toNat = pointer.toNat + 1 := toNat_succ (by omega)
              rw [storeAll_outside (by rw [hnext, List.length_cons]; omega)
                (by rw [hnext]; omega)]
              exact Function.update_self pointer b' mem
      | succ i =>
          have hi' : bs[i]? = some b := by simpa using hi
          have hlen : i < bs.length := (List.getElem?_eq_some_iff.mp hi').1
          have hnext : (pointer + 1).toNat = pointer.toNat + 1 := toNat_succ (by omega)
          have hshift : pointer + UInt8.ofNat (i + 1) = pointer + 1 + UInt8.ofNat i := by
            rw [UInt8.ofNat_add, UInt8.add_comm (UInt8.ofNat i), ← UInt8.add_assoc]
            rfl
          rw [hshift]
          exact ih (by rw [hnext]; omega) hi'

/-- Ones stored from the pointer on, with the addresses wrapping, change no other byte. -/
theorem storeAll_ones (mem : UInt8 → UInt8) (pointer : UInt8) (count : Nat) (x : UInt8) :
    storeAll mem pointer (List.replicate count 0xFF) x =
      if ∃ j, j < count ∧ x = pointer + UInt8.ofNat j then 0xFF else mem x := by
  induction count generalizing mem pointer with
  | zero => simp [storeAll]
  | succ count ih =>
      have hshift : ∀ j, pointer + 1 + UInt8.ofNat j = pointer + UInt8.ofNat (j + 1) := by
        intro j
        rw [UInt8.ofNat_add, UInt8.add_comm (UInt8.ofNat j), ← UInt8.add_assoc]
        rfl
      rw [List.replicate_succ, storeAll, ih]
      by_cases hlater : ∃ j, j < count ∧ x = pointer + 1 + UInt8.ofNat j
      · rcases hlater with ⟨j, hj, hx⟩
        rw [if_pos ⟨j, hj, hx⟩, if_pos ⟨j + 1, Nat.succ_lt_succ hj, hx.trans (hshift j)⟩]
      · rw [if_neg hlater]
        by_cases hx : x = pointer
        · rw [hx, Function.update_self, if_pos ⟨0, Nat.succ_pos count, by simp⟩]
        · rw [Function.update_of_ne hx, if_neg]
          rintro ⟨j, hj, hxj⟩
          cases j with
          | zero => exact hx (by simpa using hxj)
          | succ j =>
              exact hlater ⟨j, Nat.lt_of_succ_lt_succ hj, hxj.trans (hshift j).symm⟩

/-! ## The driver on the memory -/

/-- A message with the chip address leaves the memory waiting for a data address,
whatever the direction of the message. -/
theorem startMsg_memory {msg : I2cMsg} {m : Memory} (haddr : msg.addr = m.chip.toUInt16)
    (hflags : msg.flags &&& I2C_M_NOSTART = 0) :
    startMsg memoryBus msg m =
      { value := true, dev := { m with mode := .address }, events := [.start m.chip true] } := by
  unfold startMsg ls2kI2cStart startAttempts
  rw [if_pos hflags, haddr]
  simp [memoryBus]

/-- In store mode, a byte loop stores its bytes. -/
theorem writeBytes_store (i : Nat) (bs : List UInt8) {m : Memory} (hmode : m.mode = .store) :
    (writeBytes memoryBus i bs m).dev =
      { m with
        mem := storeAll m.mem m.pointer bs
        pointer := m.pointer + UInt8.ofNat bs.length } := by
  induction bs generalizing i m with
  | nil => simp [writeBytes, storeAll]
  | cons b bs ih =>
      have hnext := ih (i + 1) (m := { m with
        mem := Function.update m.mem m.pointer b
        pointer := m.pointer + 1 }) hmode
      have hpointer : m.pointer + 1 + UInt8.ofNat bs.length =
          m.pointer + UInt8.ofNat (bs.length + 1) := by
        rw [UInt8.ofNat_add, UInt8.add_comm (UInt8.ofNat bs.length), ← UInt8.add_assoc]
        rfl
      rw [hpointer] at hnext
      rw [writeBytes, storeAll, List.length_cons, ← hnext]
      simp [memoryBus, Memory.receive, hmode]

/-- The first byte behind the chip address sets the pointer. -/
theorem writeBytes_address {m : Memory} (hmode : m.mode = .address) (i : Nat) (a : UInt8)
    (bs : List UInt8) :
    (writeBytes memoryBus i (a :: bs) m).dev =
      (writeBytes memoryBus (i + 1) bs { m with pointer := a, mode := .store }).dev := by
  rw [writeBytes]
  simp [memoryBus, Memory.receive, hmode]

/-- Outside `fetch` mode a read finds ones, and the memory takes them in. -/
theorem read_undriven {m : Memory} (hmode : m.mode ≠ .fetch) (last : Bool) :
    memoryBus.read m last = (0xFF, m.receive 0xFF) := by
  unfold memoryBus
  cases hcase : m.mode with
  | fetch => exact absurd hcase hmode
  | idle => simp [hcase]
  | address => simp [hcase]
  | store => simp [hcase]

/-- In store mode, a read of some bytes stores as many ones. -/
theorem ls2kI2cRead_store (count : Nat) {m : Memory} (hmode : m.mode = .store) :
    (ls2kI2cRead memoryBus count m).value = List.replicate count 0xFF ∧
      (ls2kI2cRead memoryBus count m).dev.mem =
        storeAll m.mem m.pointer (List.replicate count 0xFF) := by
  induction count generalizing m with
  | zero => exact ⟨rfl, rfl⟩
  | succ count ih =>
      have hread := read_undriven (m := m) (by rw [hmode]; exact Mode.noConfusion)
      have hreceive : m.receive 0xFF = { m with
          mem := Function.update m.mem m.pointer 0xFF
          pointer := m.pointer + 1 } := by
        simp [Memory.receive, hmode]
      rw [hreceive] at hread
      have hrest := ih (m := { m with
        mem := Function.update m.mem m.pointer 0xFF
        pointer := m.pointer + 1 }) hmode
      simp only [ls2kI2cRead, hread]
      rw [List.replicate_succ, hrest.1, hrest.2]
      exact ⟨rfl, rfl⟩

/-- While a pointer is expected, the first of the bytes read is that pointer. -/
theorem ls2kI2cRead_address (count : Nat) {m : Memory} (hmode : m.mode = .address) :
    (ls2kI2cRead memoryBus count m).value = List.replicate count 0xFF ∧
      (ls2kI2cRead memoryBus count m).dev.mem =
        storeAll m.mem 0xFF (List.replicate (count - 1) 0xFF) := by
  cases count with
  | zero => exact ⟨rfl, rfl⟩
  | succ count =>
      have hread := read_undriven (m := m) (by rw [hmode]; exact Mode.noConfusion)
      have hreceive : m.receive 0xFF = { m with pointer := 0xFF, mode := .store } := by
        simp [Memory.receive, hmode]
      rw [hreceive] at hread
      have hrest := ls2kI2cRead_store count (m := { m with pointer := 0xFF, mode := .store }) rfl
      simp only [ls2kI2cRead, hread]
      rw [List.replicate_succ, hrest.1, hrest.2, Nat.add_sub_cancel]
      exact ⟨rfl, rfl⟩

/-! ## The API functions on the memory -/

theorem toNat_toLen {n : Nat} (hn : n ≤ 256) : (toLen n).toNat = n := by
  unfold toLen
  have hmod : ((n : Int) % 65536).toNat = n := by omega
  rw [hmod, UInt16.toNat_ofNat']
  omega

/-- The first byte of the parameter `addr` is the data address. -/
theorem paramBytes_zero (a : UInt8) (beyond : Nat → UInt8) :
    paramBytes a.toUInt32 beyond 0 = a := by
  simp [paramBytes]

section Api

variable (m : Memory) (a : UInt8) (beyond buffer : Nat → UInt8)

/-- The message with the data address that both API functions begin with. -/
def addressMsg (chip a : UInt8) (beyond : Nat → UInt8) : I2cMsg where
  addr := chip.toUInt16
  flags := 0
  len := toLen 1
  buf := paramBytes a.toUInt32 beyond

/-- Behind it the pointer is the data address, and the memory waits for bytes to
store. -/
theorem addressMsg_dev :
    (startMsg memoryBus (addressMsg m.chip a beyond) m).value = true ∧
      (moveMsg memoryBus (addressMsg m.chip a beyond)
          (startMsg memoryBus (addressMsg m.chip a beyond) m).dev).dev =
        { m with pointer := a, mode := .store } := by
  have hflags : (0 : UInt16) &&& I2C_M_NOSTART = 0 := by decide
  have hstart : startMsg memoryBus (addressMsg m.chip a beyond) m = _ :=
    startMsg_memory (m := m) rfl hflags
  have hone : (toLen 1).toNat = 1 := rfl
  have hbytes : (addressMsg m.chip a beyond).bytes = [a] := by
    simp [I2cMsg.bytes, addressMsg, hone, paramBytes_zero]
  have hwrite : ¬ (addressMsg m.chip a beyond).flags &&& I2C_M_RD ≠ 0 := by
    show ¬ (0 : UInt16) &&& I2C_M_RD ≠ 0
    decide
  rw [hstart]
  refine ⟨rfl, ?_⟩
  unfold moveMsg ls2kI2cWrite
  rw [if_neg hwrite, hbytes]
  exact writeBytes_address rfl 0 a []

/-- `i2c_write` stores its buffer from the data address on. -/
theorem i2cWrite_dev {n : Nat} (hn : n ≤ 256) :
    (i2cWrite memoryBus m.chip a.toUInt32 beyond 1 buffer n m).transfer.dev =
      { m with
        mem := storeAll m.mem a ((List.range n).map buffer)
        pointer := a + UInt8.ofNat n
        mode := .idle } := by
  rcases addressMsg_dev m a beyond with ⟨hvalue, hdev⟩
  have hnostart : ¬ I2C_M_NOSTART &&& I2C_M_NOSTART = 0 := by decide
  have hwrite : ¬ I2C_M_NOSTART &&& I2C_M_RD ≠ 0 := by decide
  have hstore := writeBytes_store 0 ((List.range n).map buffer)
    (m := { m with pointer := a, mode := .store }) rfl
  rw [List.length_map, List.length_range] at hstore
  unfold addressMsg at hvalue hdev
  unfold i2cWrite i2cTransfer writeMsgs transferMsgs
  simp only [hvalue, if_true, hdev]
  simp only [transferMsgs, startMsg, if_neg hnostart, if_true, moveMsg, if_neg hwrite,
    ls2kI2cWrite, I2cMsg.bytes, toNat_toLen hn, hstore]
  rfl

/-- A buffer that does not wrap is stored byte by byte, and no other byte changes. -/
theorem i2cWrite_stores {n : Nat} (hwrap : a.toNat + n ≤ 256) :
    let dev := (i2cWrite memoryBus m.chip a.toUInt32 beyond 1 buffer n m).transfer.dev
    (∀ i, i < n → dev.mem (a + UInt8.ofNat i) = buffer i) ∧
      ∀ x : UInt8, ¬ (a.toNat ≤ x.toNat ∧ x.toNat < a.toNat + n) → dev.mem x = m.mem x := by
  have hlen : a.toNat + ((List.range n).map buffer).length ≤ 256 := by simpa using hwrap
  intro dev
  have hdev : dev = _ := i2cWrite_dev m a beyond buffer (by omega)
  rw [hdev]
  constructor
  · intro i hi
    apply storeAll_inside hlen
    simp [hi]
  · intro x hx
    apply storeAll_outside hlen
    simpa using hx

/-- `i2c_read` reads a bus that nobody drives.  The memory takes the first byte for its
pointer and stores the others from `0xFF` on. -/
theorem i2cRead_undriven {n : Nat} (hn : n ≤ 256) :
    (i2cRead memoryBus m.chip a.toUInt32 beyond 1 buffer n m).buffer = List.replicate n 0xFF ∧
      (i2cRead memoryBus m.chip a.toUInt32 beyond 1 buffer n m).transfer.dev.mem =
        storeAll m.mem 0xFF (List.replicate (n - 1) 0xFF) := by
  rcases addressMsg_dev m a beyond with ⟨hvalue, hdev⟩
  have hread : I2C_M_RD &&& I2C_M_RD ≠ 0 := by decide
  have hflags : I2C_M_RD &&& I2C_M_NOSTART = 0 := by decide
  have hstart : startMsg memoryBus ⟨m.chip.toUInt16, I2C_M_RD, toLen n, buffer⟩
      { m with pointer := a, mode := .store } = _ :=
    startMsg_memory (m := { m with pointer := a, mode := .store }) rfl hflags
  have hundriven := ls2kI2cRead_address n
    (m := { m with pointer := a, mode := .address }) rfl
  unfold addressMsg at hvalue hdev
  unfold ApiRun.buffer i2cRead i2cTransfer readMsgs transferMsgs
  simp only [hvalue, if_true, hdev]
  simp only [transferMsgs, hstart, if_true, moveMsg, if_pos hread, toNat_toLen hn, hundriven]
  exact ⟨trivial, hundriven.2⟩

end Api

/-- Writing a buffer that does not wrap and reading it back returns the buffer, and
leaves all other bytes unchanged, if and only if every byte of the buffer is `0xFF`, and so
are the bytes outside it at the addresses `0xFF`, `0x00` and so on, one less than the
buffer is long. -/
theorem i2c_write_read_iff (m : Memory) (a : UInt8) (beyond beyond' buffer out : Nat → UInt8)
    {n : Nat} (hwrap : a.toNat + n ≤ 256) :
    let written := i2cWrite memoryBus m.chip a.toUInt32 beyond 1 buffer n m
    let r := i2cRead memoryBus m.chip a.toUInt32 beyond' 1 out n written.transfer.dev
    let inBuffer := fun x : UInt8 => a.toNat ≤ x.toNat ∧ x.toNat < a.toNat + n
    (r.buffer = (List.range n).map buffer ∧
        ∀ x, ¬ inBuffer x → r.transfer.dev.mem x = m.mem x) ↔
      (∀ i, i < n → buffer i = 0xFF) ∧
        ∀ j, j < n - 1 → ¬ inBuffer (0xFF + UInt8.ofNat j) →
          m.mem (0xFF + UInt8.ofNat j) = 0xFF := by
  intro written r inBuffer
  have hn : n ≤ 256 := by omega
  have hchip : written.transfer.dev.chip = m.chip := by
    have hdev : written.transfer.dev = _ := i2cWrite_dev m a beyond buffer hn
    rw [hdev]
  have hread := i2cRead_undriven written.transfer.dev a beyond' out hn
  rw [hchip] at hread
  have hmem : ∀ x, ¬ inBuffer x → r.transfer.dev.mem x =
      if ∃ j, j < n - 1 ∧ x = 0xFF + UInt8.ofNat j then 0xFF else m.mem x := by
    intro x hx
    have hstored : r.transfer.dev.mem x = _ := congrFun hread.2 x
    rw [hstored, storeAll_ones]
    congr 1
    exact (i2cWrite_stores m a beyond buffer hwrap).2 x hx
  apply and_congr
  · rw [hread.1]
    constructor
    · intro hsame i hi
      have hget := congrArg (fun l => l[i]?) hsame
      simpa [hi, eq_comm] using hget
    · intro hones
      apply List.ext_getElem
      · simp
      · intro i hi hi'
        have hlt : i < n := by simpa using hi
        simp [hones i hlt]
  · constructor
    · intro hsame j hj hout
      rw [← hsame _ hout, hmem _ hout, if_pos ⟨j, hj, rfl⟩]
    · intro hones x hx
      rw [hmem x hx]
      by_cases hstored : ∃ j, j < n - 1 ∧ x = 0xFF + UInt8.ofNat j
      · rw [if_pos hstored]
        rcases hstored with ⟨j, hj, rfl⟩
        exact (hones j hj hx).symm
      · rw [if_neg hstored]

/-- A chip at `0xA0` that holds ones, as when it has been erased. -/
def erasedMemory : Memory where
  chip := 0xA0
  chip_even := rfl
  mem _ := 0xFF
  pointer := 0
  mode := .idle

/-- Two bytes of ones come back from an erased chip. -/
theorem i2c_write_read_ones :
    let written := i2cWrite memoryBus erasedMemory.chip (0x10 : UInt8).toUInt32 (fun _ => 0) 1
      (fun _ => 0xFF) (2 : Nat) erasedMemory
    let r := i2cRead memoryBus erasedMemory.chip (0x10 : UInt8).toUInt32 (fun _ => 0) 1
      (fun _ => 0) (2 : Nat) written.transfer.dev
    r.buffer = (List.range 2).map (fun _ => 0xFF) ∧
      ∀ x : UInt8, ¬ ((0x10 : UInt8).toNat ≤ x.toNat ∧ x.toNat < (0x10 : UInt8).toNat + 2) →
        r.transfer.dev.mem x = erasedMemory.mem x :=
  (i2c_write_read_iff erasedMemory 0x10 (fun _ => 0) (fun _ => 0) (fun _ => 0xFF) (fun _ => 0)
    (by decide)).mpr ⟨fun _ _ => rfl, fun _ _ _ => rfl⟩

/-- A chip at `0xA0` that holds zeros. -/
def blankMemory : Memory where
  chip := 0xA0
  chip_even := rfl
  mem _ := 0
  pointer := 0
  mode := .idle

/-- The byte `0x55` is stored at address `0x10`, and `0xFF` is read there. -/
theorem i2c_write_read_55 :
    let written := i2cWrite memoryBus blankMemory.chip (0x10 : UInt8).toUInt32 (fun _ => 0) 1
      (fun _ => 0x55) (1 : Nat) blankMemory
    let r := i2cRead memoryBus blankMemory.chip (0x10 : UInt8).toUInt32 (fun _ => 0) 1
      (fun _ => 0) (1 : Nat) written.transfer.dev
    written.transfer.dev.mem 0x10 = 0x55 ∧ r.buffer = [0xFF] ∧
      r.buffer ≠ (List.range 1).map fun _ => 0x55 := by
  decide

end I2c
end Ls2kMorse
