import Ls2kMorse.I2c.Driver
import Ls2kMorse.Lib.Session

/-!
# The EEPROM

The functions of `eeprom.c` talk to an EEPROM over the same controller: a helper
sends a byte and closes the bus when it is not acknowledged, and every operation
closes it when it is through.  The helpers do not agree on how they report: a byte
is sent with zero or minus one, an address with one or zero.

Main results:

- Theorem `eeprom_session`: every operation is a session on the bus.
- Theorem `eeprom_stops`: the bus is stopped once, at the end of every call.
- Theorem `eeprom_reports_iff`: which calls report what happened.
-/

namespace Ls2kMorse
namespace I2c

/-! ## The operations -/

/-- The bus address of the EEPROM. -/
def CAT24C16_ADDR : UInt8 := 0xA0

/-- Command bit: a start condition first. -/
def CR_START : UInt8 := 0x80

/-- Command bit: receive a byte. -/
def CR_READ : UInt8 := 0x20

/-- Command bit: send a byte. -/
def CR_WRITE : UInt8 := 0x10

/-- Command bit: do not acknowledge the byte received. -/
def CR_ACK : UInt8 := 0x08

section Operations

variable {σ α β : Type}

/-- A value that no access to the bus was made for. -/
def Result.done (value : α) (dev : σ) : Result σ α :=
  { value := value, dev := dev, events := [] }

/-- One function after another. -/
def Result.follow (r : Result σ α) (f : α → σ → Result σ β) : Result σ β :=
  let rest := f r.value r.dev
  { rest with events := r.events ++ rest.events }

variable (bus : Bus σ)

/-- `i2c_tx_byte`: sends one byte and returns whether the slave acknowledged it. -/
def i2cTxByte (data opt : UInt8) (dev : σ) : Result σ Int :=
  let starts : Bool := opt &&& CR_START ≠ 0
  let (ack, dev) := if starts then bus.start dev data else bus.write dev data
  let event : Event := if starts then .start data ack else .write data ack
  if ack then { value := 0, dev := dev, events := [event] }
  else
    let stopped := ls2kI2cStop bus dev
    { stopped with value := -1, events := event :: stopped.events }

/-- A read command and the byte in the receive register behind it. -/
def i2cRxByte (opt : UInt8) (dev : σ) : Result σ UInt8 :=
  let last : Bool := opt &&& CR_ACK ≠ 0
  let (byte, dev) := bus.read dev last
  { value := byte, dev := dev, events := [.read byte last] }

/-- `i2c_send_addr`: the bus address and then the data address. -/
def i2cSendAddr (dataAddr : UInt8) (dev : σ) : Result σ Int :=
  (i2cTxByte bus CAT24C16_ADDR (CR_START ||| CR_WRITE) dev).follow fun sent dev =>
    if sent < 0 then .done 0 dev
    else
      (i2cTxByte bus dataAddr CR_WRITE dev).follow fun sent dev =>
        if sent < 0 then .done 0 dev else .done 1 dev

/-- `ls2k_eeprom_write_byte`: the address, one byte and a stop. -/
def ls2kEepromWriteByte (dataAddr byte : UInt8) (dev : σ) : Result σ Int :=
  (i2cSendAddr bus dataAddr dev).follow fun ok dev =>
    if ok = 0 then .done 0 dev
    else
      (i2cTxByte bus byte CR_WRITE dev).follow fun sent dev =>
        if sent < 0 then .done 0 dev
        else (ls2kI2cStop bus dev).follow fun _ dev => .done 1 dev

/-- The loop of `ls2k_eeprom_write_page` at index `i`, with `n` bytes to go. -/
def writePageFrom (buf : Nat → UInt8) : Nat → Nat → σ → Result σ Int
  | i, 0, dev => (ls2kI2cStop bus dev).follow fun _ dev => .done i dev
  | i, n + 1, dev =>
      (i2cTxByte bus (buf i) CR_WRITE dev).follow fun sent dev =>
        if sent < 0 then .done 0 dev else writePageFrom buf (i + 1) n dev

/-- `ls2k_eeprom_write_page`: the address, `count` bytes of `buf` and a stop. -/
def ls2kEepromWritePage (dataAddr : UInt8) (buf : Nat → UInt8) (count : Int) (dev : σ) :
    Result σ Int :=
  (i2cSendAddr bus dataAddr dev).follow fun ok dev =>
    if ok = 0 then .done 0 dev else writePageFrom bus buf 0 count.toNat dev

/-- What a reading function returns, and the bytes it stored from `buf` on. -/
structure Reading where
  result : Int
  stored : List UInt8
deriving Repr, DecidableEq

/-- `ls2k_eeprom_read_cur`: one byte from the address the EEPROM has reached. -/
def ls2kEepromReadCur (dev : σ) : Result σ Reading :=
  (i2cTxByte bus (CAT24C16_ADDR ||| 0x1) (CR_START ||| CR_WRITE) dev).follow fun sent dev =>
    if sent < 0 then .done ⟨0, []⟩ dev
    else
      (i2cRxByte bus CR_READ dev).follow fun byte dev =>
        (ls2kI2cStop bus dev).follow fun _ dev => .done ⟨1, [byte]⟩ dev

/-- The test of what `ls2k_eeprom_read_cur` returns guards an empty statement. -/
def ls2kEepromReadRand (dataAddr : UInt8) (dev : σ) : Result σ Reading :=
  (i2cSendAddr bus dataAddr dev).follow fun ok dev =>
    if ok = 0 then .done ⟨0, []⟩ dev
    else (ls2kEepromReadCur bus dev).follow fun cur dev => .done ⟨0, cur.stored⟩ dev

/-- The loop of `i2c_read_seq_cur` at index `i`, with `n` bytes to go. -/
def readSeqFrom (count : Int) : Nat → Nat → σ → Result σ Reading
  | i, 0, dev => (ls2kI2cStop bus dev).follow fun _ dev => .done ⟨i, []⟩ dev
  | i, n + 1, dev =>
      let opt := if (i : Int) = count - 1 then CR_READ ||| CR_ACK else CR_READ
      (i2cRxByte bus opt dev).follow fun byte dev =>
        (readSeqFrom count (i + 1) n dev).follow fun rest dev =>
          .done ⟨rest.result, byte :: rest.stored⟩ dev

/-- `i2c_read_seq_cur`: `count` bytes from the address the EEPROM has reached. -/
def i2cReadSeqCur (count : Int) (dev : σ) : Result σ Reading :=
  (i2cTxByte bus (CAT24C16_ADDR ||| 0x1) (CR_START ||| CR_WRITE) dev).follow fun sent dev =>
    if sent < 0 then .done ⟨0, []⟩ dev else readSeqFrom bus count 0 count.toNat dev

/-- `i2c_read_seq_rand`: sets the address, then reads `count` bytes from there. -/
def i2cReadSeqRand (dataAddr : UInt8) (count : Int) (dev : σ) : Result σ Reading :=
  (i2cSendAddr bus dataAddr dev).follow fun ok dev =>
    if ok = 0 then .done ⟨0, []⟩ dev else i2cReadSeqCur bus count dev

/-- `ls2k_eeprom_read_seq`: a sequential read from a given address. -/
def ls2kEepromReadSeq (dataAddr : UInt8) (count : Int) (dev : σ) : Result σ Reading :=
  i2cReadSeqRand bus dataAddr count dev

/-- A call of one of the five operations with its arguments; `buf` is the memory
that is written to the EEPROM. -/
inductive Call where
  | writeByte (dataAddr byte : UInt8)
  | writePage (dataAddr : UInt8) (buf : Nat → UInt8) (count : Int)
  | readCur
  | readRand (dataAddr : UInt8)
  | readSeq (dataAddr : UInt8) (count : Int)

/-- A writing function stores nothing in memory. -/
def Result.reading (r : Result σ Int) : Result σ Reading :=
  { r with value := ⟨r.value, []⟩ }

/-- The operation that a call names, with its result as a reading. -/
def Call.run : Call → σ → Result σ Reading
  | .writeByte dataAddr byte, dev => (ls2kEepromWriteByte bus dataAddr byte dev).reading
  | .writePage dataAddr buf count, dev => (ls2kEepromWritePage bus dataAddr buf count dev).reading
  | .readCur, dev => ls2kEepromReadCur bus dev
  | .readRand dataAddr, dev => ls2kEepromReadRand bus dataAddr dev
  | .readSeq dataAddr count, dev => ls2kEepromReadSeq bus dataAddr count dev

end Operations

/-! ## Events as a session -/

/-- A byte that was sent without an acknowledge. -/
def Event.noAck : Event → Bool
  | .start _ ack | .write _ ack => !ack
  | .read _ _ | .stop _ => false

/-- Whether the event is a stop condition. -/
def Event.isStop : Event → Bool
  | .stop _ => true
  | .start _ _ | .write _ _ | .read _ _ => false

/-- A byte is sent or received. -/
def Event.moves : Event → Bool
  | .stop _ => false
  | .start _ _ | .write _ _ | .read _ _ => true

/-- The byte received. -/
def Event.received : Event → Option UInt8
  | .read byte _ => some byte
  | .start _ _ | .write _ _ | .stop _ => none

/-- Whether the end was signalled with the byte received. -/
def Event.signals : Event → Option Bool
  | .read _ last => some last
  | .start _ _ | .write _ _ | .stop _ => none

/-- The bus is closed by STOP, and a missing acknowledge is a failure. -/
def busSigns : Lib.Session.Signs Event where
  fails := Event.noAck
  closes := Event.isStop
  acts := Event.moves
  fails_of_closes e he := by
    cases e with
    | stop again => rfl
    | start addr ack => exact absurd he Bool.false_ne_true
    | write byte ack => exact absurd he Bool.false_ne_true
    | read byte last => exact absurd he Bool.false_ne_true
  acts_of_closes e he := by
    cases e with
    | stop again => rfl
    | start addr ack => exact absurd he Bool.false_ne_true
    | write byte ack => exact absurd he Bool.false_ne_true
    | read byte last => exact absurd he Bool.false_ne_true

open Lib.Session (Running Finished Aborted Ended ClosedOnce Quiet)

section Sessions

variable {σ α β : Type} (bus : Bus σ)

@[simp]
theorem Result.value_done (a : α) (dev : σ) : (Result.done a dev).value = a :=
  rfl

@[simp]
theorem Result.events_done (a : α) (dev : σ) : (Result.done a dev).events = [] :=
  rfl

@[simp]
theorem Result.value_follow (r : Result σ α) (f : α → σ → Result σ β) :
    (r.follow f).value = (f r.value r.dev).value :=
  rfl

@[simp]
theorem Result.events_follow (r : Result σ α) (f : α → σ → Result σ β) :
    (r.follow f).events = r.events ++ (f r.value r.dev).events :=
  rfl

@[simp]
theorem Result.value_reading (r : Result σ Int) : r.reading.value = ⟨r.value, []⟩ :=
  rfl

@[simp]
theorem Result.events_reading (r : Result σ Int) : r.reading.events = r.events :=
  rfl

/-- The way of the helpers that send: they return `ok` with the bus in use, or `bad`
with the bus stopped, and read nothing. -/
structure Sends (ok bad : Int) (r : Result σ Int) : Prop where
  ends : (r.value = ok ∧ Running busSigns r.events) ∨ (r.value = bad ∧ Aborted busSigns r.events)
  received : r.events.filterMap Event.received = []
  signals : r.events.filterMap Event.signals = []

/-- A byte sent is acknowledged or the operation has failed. -/
theorem i2cTxByte_sends (data opt : UInt8) (dev : σ) :
    Sends 0 (-1) (i2cTxByte bus data opt dev) := by
  unfold i2cTxByte
  cases hstart : (opt &&& CR_START ≠ 0 : Bool) with
  | true =>
      cases hack : (bus.start dev data).1 with
      | true =>
          simp only [hack, if_true]
          exact ⟨Or.inl ⟨rfl, Lib.Session.running_singleton rfl rfl⟩, rfl, rfl⟩
      | false =>
          simp only [hack, if_true, Bool.false_eq_true, if_false]
          exact ⟨Or.inr ⟨rfl, Lib.Session.aborted_pair rfl rfl⟩, rfl, rfl⟩
  | false =>
      cases hack : (bus.write dev data).1 with
      | true =>
          simp only [hack, if_true, Bool.false_eq_true, if_false]
          exact ⟨Or.inl ⟨rfl, Lib.Session.running_singleton rfl rfl⟩, rfl, rfl⟩
      | false =>
          simp only [hack, Bool.false_eq_true, if_false]
          exact ⟨Or.inr ⟨rfl, Lib.Session.aborted_pair rfl rfl⟩, rfl, rfl⟩

theorem minusOne_lt_zero : (-1 : Int) < 0 :=
  Int.negSucc_lt_zero 0

/-- Sending goes on behind what was acknowledged, and is over otherwise. -/
theorem Sends.follow {ok bad ok' bad' : Int} {r : Result σ Int} {f : Int → σ → Result σ Int}
    (h : Sends ok bad r) (hok : ∀ dev, Sends ok' bad' (f ok dev))
    (hbad : ∀ dev, f bad dev = .done bad' dev) : Sends ok' bad' (r.follow f) := by
  rcases h with ⟨⟨hvalue, hrun⟩ | ⟨hvalue, habort⟩, hrec, hsig⟩
  · rcases hok r.dev with ⟨hends, hrec', hsig'⟩
    constructor
    · rw [Result.value_follow, Result.events_follow, hvalue]
      apply hends.imp
      · exact fun hok => ⟨hok.1, hrun.append hok.2⟩
      · exact fun hbad => ⟨hbad.1, hrun.append_aborted hbad.2⟩
    · rw [Result.events_follow, hvalue, List.filterMap_append, hrec, hrec', List.nil_append]
    · rw [Result.events_follow, hvalue, List.filterMap_append, hsig, hsig', List.nil_append]
  · constructor
    · rw [Result.value_follow, Result.events_follow, hvalue, hbad, Result.events_done,
        List.append_nil]
      exact Or.inr ⟨rfl, habort⟩
    · rw [Result.events_follow, hvalue, hbad, Result.events_done, List.append_nil, hrec]
    · rw [Result.events_follow, hvalue, hbad, Result.events_done, List.append_nil, hsig]

/-- A value without an access sends nothing. -/
theorem sends_done (ok bad : Int) (dev : σ) : Sends ok bad (.done ok dev) :=
  ⟨Or.inl ⟨rfl, Lib.Session.running_nil⟩, rfl, rfl⟩

section Tests

variable {p : Int → Prop} [DecidablePred p]

/-- The test that the driver makes of what a helper returned. -/
theorem Sends.test {ok bad ok' bad' : Int} {r : Result σ Int} {f : σ → Result σ Int}
    (h : Sends ok bad r) (hok : ¬ p ok) (hbad : p bad) (hf : ∀ dev, Sends ok' bad' (f dev)) :
    Sends ok' bad' (r.follow fun value dev => if p value then .done bad' dev else f dev) := by
  apply h.follow
  · intro dev
    rw [if_neg hok]
    exact hf dev
  · intro dev
    rw [if_pos hbad]

end Tests

/-- The two address bytes are acknowledged or the operation has failed. -/
theorem i2cSendAddr_sends (dataAddr : UInt8) (dev : σ) :
    Sends 1 0 (i2cSendAddr bus dataAddr dev) := by
  apply (i2cTxByte_sends bus CAT24C16_ADDR (CR_START ||| CR_WRITE) dev).test (p := (· < 0))
    (Int.lt_irrefl 0)
    minusOne_lt_zero
  intro dev
  apply (i2cTxByte_sends bus dataAddr CR_WRITE dev).test (p := (· < 0)) (Int.lt_irrefl 0)
    minusOne_lt_zero
  exact sends_done 1 0

/-- The way of the operations: they return `full` at the end of a finished session
with the end of what was read signalled as in `signals`, or 0 when it was aborted;
what they store is what they received. -/
structure Completes (full : Int) (signals : List Bool) (r : Result σ Reading) : Prop where
  ends : (r.value.result = full ∧ Finished busSigns r.events ∧
      r.events.filterMap Event.signals = signals) ∨
    (r.value.result = 0 ∧ Aborted busSigns r.events ∧ r.events.filterMap Event.signals = [])
  stored : r.value.stored = r.events.filterMap Event.received

variable {whole : Int} {sigs : List Bool}

/-- An operation goes on behind what was acknowledged, and is over otherwise. -/
theorem Sends.follow_completes {ok bad : Int} {r : Result σ Int} {f : Int → σ → Result σ Reading}
    (h : Sends ok bad r) (hok : ∀ dev, Completes whole sigs (f ok dev))
    (hbad : ∀ dev, f bad dev = .done ⟨0, []⟩ dev) : Completes whole sigs (r.follow f) := by
  rcases h with ⟨⟨hvalue, hrun⟩ | ⟨hvalue, habort⟩, hrec, hsig⟩
  · rcases hok r.dev with ⟨hends, hstored⟩
    constructor
    · rw [Result.value_follow, Result.events_follow, hvalue, List.filterMap_append, hsig,
        List.nil_append]
      apply hends.imp
      · exact fun hfull => ⟨hfull.1, hrun.append_finished hfull.2.1, hfull.2.2⟩
      · exact fun hzero => ⟨hzero.1, hrun.append_aborted hzero.2.1, hzero.2.2⟩
    · rw [Result.value_follow, Result.events_follow, hvalue, List.filterMap_append, hrec, hstored,
        List.nil_append]
  · constructor
    · rw [Result.value_follow, Result.events_follow, hvalue, hbad, Result.events_done,
        List.append_nil]
      exact Or.inr ⟨rfl, habort, hsig⟩
    · rw [Result.value_follow, Result.events_follow, hvalue, hbad, Result.events_done,
        List.append_nil, hrec]
      rfl

section Tests

variable {p : Int → Prop} [DecidablePred p] {ok bad : Int} {r : Result σ Int}

/-- The test that an operation makes of what a helper returned. -/
theorem Sends.test_completes {f : σ → Result σ Reading} (h : Sends ok bad r) (hok : ¬ p ok)
    (hbad : p bad) (hf : ∀ dev, Completes whole sigs (f dev)) :
    Completes whole sigs
      (r.follow fun value dev => if p value then .done ⟨0, []⟩ dev else f dev) := by
  apply h.follow_completes
  · intro dev
    rw [if_neg hok]
    exact hf dev
  · intro dev
    rw [if_pos hbad]

/-- A test on what was sent either ends the call or goes on with the rest. -/
theorem Sends.test_completes_reading {f : σ → Result σ Int} (h : Sends ok bad r) (hok : ¬ p ok)
    (hbad : p bad) (hf : ∀ dev, Completes whole sigs (f dev).reading) :
    Completes whole sigs
      (r.follow fun value dev => if p value then .done 0 dev else f dev).reading := by
  apply h.follow_completes (f := fun value dev =>
    (if p value then Result.done 0 dev else f dev).reading)
  · intro dev
    rw [if_neg hok]
    exact hf dev
  · intro dev
    rw [if_pos hbad]
    rfl

end Tests

/-- A session that has only to be closed. -/
theorem completes_stop (dev : σ) :
    Completes whole [] ((ls2kI2cStop bus dev).follow fun _ dev => .done ⟨whole, []⟩ dev) :=
  ⟨Or.inl ⟨rfl, Lib.Session.finished_singleton rfl, rfl⟩, rfl⟩

/-! ## Every operation is a session -/

/-- A write of one byte returns one when it is acknowledged throughout. -/
theorem ls2kEepromWriteByte_completes (dataAddr byte : UInt8) (dev : σ) :
    Completes 1 [] (ls2kEepromWriteByte bus dataAddr byte dev).reading := by
  apply (i2cSendAddr_sends bus dataAddr dev).test_completes_reading (p := (· = 0))
    Int.one_ne_zero rfl
  intro dev
  apply (i2cTxByte_sends bus byte CR_WRITE dev).test_completes_reading (p := (· < 0))
    (Int.lt_irrefl 0) minusOne_lt_zero
  exact completes_stop bus

/-- The loop of a page write returns the bytes behind and before it. -/
theorem writePageFrom_completes (buf : Nat → UInt8) (i n : Nat) (dev : σ) :
    Completes (i + n : Nat) [] (writePageFrom bus buf i n dev).reading := by
  induction n generalizing i dev with
  | zero => exact completes_stop bus dev
  | succ n ih =>
      apply (i2cTxByte_sends bus (buf i) CR_WRITE dev).test_completes_reading (p := (· < 0))
        (Int.lt_irrefl 0) minusOne_lt_zero
      intro dev
      rw [Nat.add_comm n 1, ← Nat.add_assoc]
      exact ih (i + 1) dev

/-- A page write returns the number of its bytes when it is acknowledged throughout. -/
theorem ls2kEepromWritePage_completes (dataAddr : UInt8) (buf : Nat → UInt8) (count : Int)
    (dev : σ) :
    Completes count.toNat [] (ls2kEepromWritePage bus dataAddr buf count dev).reading := by
  apply (i2cSendAddr_sends bus dataAddr dev).test_completes_reading (p := (· = 0))
    Int.one_ne_zero rfl
  intro dev
  have hpage := writePageFrom_completes bus buf 0 count.toNat dev
  rw [Nat.zero_add] at hpage
  exact hpage

/-- A read of the current byte ends without an acknowledge. -/
theorem ls2kEepromReadCur_completes (dev : σ) :
    Completes 1 [false] (ls2kEepromReadCur bus dev) := by
  apply (i2cTxByte_sends bus (CAT24C16_ADDR ||| 0x1) (CR_START ||| CR_WRITE) dev).test_completes
    (p := (· < 0)) (Int.lt_irrefl 0) minusOne_lt_zero
  intro dev
  refine ⟨Or.inl ⟨rfl, ?_, rfl⟩, rfl⟩
  exact (Lib.Session.running_singleton rfl rfl).append_finished
    (Lib.Session.finished_singleton rfl)

/-- What `ls2k_eeprom_read_cur` returned is lost. -/
theorem ls2kEepromReadRand_completes (dataAddr : UInt8) (dev : σ) :
    Completes 0 [false] (ls2kEepromReadRand bus dataAddr dev) := by
  apply (i2cSendAddr_sends bus dataAddr dev).test_completes (p := (· = 0)) Int.one_ne_zero rfl
  intro dev
  rcases ls2kEepromReadCur_completes bus dev with ⟨hends, hstored⟩
  constructor
  · rw [Result.value_follow, Result.events_follow, Result.value_done, Result.events_done,
      List.append_nil]
    apply hends.imp
    · exact fun hfull => ⟨rfl, hfull.2⟩
    · exact fun hzero => ⟨rfl, hzero.2⟩
  · rw [Result.value_follow, Result.events_follow, Result.value_done, Result.events_done,
      List.append_nil]
    exact hstored

/-- The signals of `n` bytes of which the last one ends the reading. -/
def endSignals : Nat → List Bool
  | 0 => []
  | n + 1 => List.replicate n false ++ [true]

/-- From index `i` on, with `n` bytes to go until `count`: the end is signalled at
the last index. -/
theorem readSeqFrom_spec {count : Int} {i n : Nat} (hcount : n = 0 ∨ (i + n : Nat) = count)
    (dev : σ) :
    (readSeqFrom bus count i n dev).value.result = (i + n : Nat) ∧
      Finished busSigns (readSeqFrom bus count i n dev).events ∧
      (readSeqFrom bus count i n dev).events.filterMap Event.signals = endSignals n ∧
      (readSeqFrom bus count i n dev).value.stored =
        (readSeqFrom bus count i n dev).events.filterMap Event.received := by
  induction n generalizing i dev with
  | zero => exact ⟨rfl, Lib.Session.finished_singleton rfl, rfl, rfl⟩
  | succ n ih =>
      have hnext : n = 0 ∨ (i + 1 + n : Nat) = count := by omega
      rcases ih hnext (bus.read dev (n == 0)).2 with ⟨hresult, hfinished, hsig, hstored⟩
      have hlast : ((if (i : Int) = count - 1 then CR_READ ||| CR_ACK else CR_READ) &&& CR_ACK ≠ 0 :
          Bool) = (n == 0) := by
        by_cases hi : (i : Int) = count - 1
        · have hn : n = 0 := by omega
          rw [if_pos hi, hn]
          decide
        · have hn : n ≠ 0 := by omega
          rw [if_neg hi, beq_false_of_ne hn]
          decide
      have hrun : Running busSigns [.read (bus.read dev (n == 0)).1 (n == 0)] :=
        Lib.Session.running_singleton rfl rfl
      unfold readSeqFrom i2cRxByte
      simp only [hlast, Result.value_follow, Result.events_follow, Result.value_done,
        Result.events_done, List.append_nil]
      refine ⟨?_, hrun.append_finished hfinished, ?_, ?_⟩
      · rw [hresult, Nat.add_comm n 1, Nat.add_assoc]
      · rw [List.filterMap_append, hsig]
        cases n with
        | zero => rfl
        | succ n => rfl
      · rw [List.filterMap_append, hstored]
        rfl

/-- A sequential read acknowledges as the chip expects. -/
theorem ls2kEepromReadSeq_completes (dataAddr : UInt8) (count : Int) (dev : σ) :
    Completes count.toNat (endSignals count.toNat) (ls2kEepromReadSeq bus dataAddr count dev) := by
  unfold ls2kEepromReadSeq
  apply (i2cSendAddr_sends bus dataAddr dev).test_completes (p := (· = 0)) Int.one_ne_zero rfl
  intro dev
  apply (i2cTxByte_sends bus (CAT24C16_ADDR ||| 0x1) (CR_START ||| CR_WRITE) dev).test_completes
    (p := (· < 0)) (Int.lt_irrefl 0) minusOne_lt_zero
  intro dev
  have hcount : count.toNat = 0 ∨ ((0 + count.toNat : Nat) : Int) = count := by omega
  rcases readSeqFrom_spec bus hcount dev with ⟨hresult, hfinished, hsig, hstored⟩
  rw [Nat.zero_add] at hresult
  exact ⟨Or.inl ⟨hresult, hfinished, hsig⟩, hstored⟩

/-- What an operation returns at the end of a finished session. -/
def Call.returned : Call → Int
  | .writeByte _ _ => 1
  | .writePage _ _ count => count.toNat
  | .readCur => 1
  | .readRand _ => 0
  | .readSeq _ count => count.toNat

/-- The acknowledge bits that the calls for `count` bytes send, in order. -/
def Call.signals : Call → List Bool
  | .writeByte _ _ | .writePage _ _ _ => []
  | .readCur | .readRand _ => [false]
  | .readSeq _ count => endSignals count.toNat

/-- Every operation is a session on the bus. -/
theorem eeprom_session (call : Call) (dev : σ) :
    Completes call.returned call.signals (call.run bus dev) := by
  cases call with
  | writeByte dataAddr byte => exact ls2kEepromWriteByte_completes bus dataAddr byte dev
  | writePage dataAddr buf count => exact ls2kEepromWritePage_completes bus dataAddr buf count dev
  | readCur => exact ls2kEepromReadCur_completes bus dev
  | readRand dataAddr => exact ls2kEepromReadRand_completes bus dataAddr dev
  | readSeq dataAddr count => exact ls2kEepromReadSeq_completes bus dataAddr count dev

/-- Every byte sent was acknowledged. -/
def Acked (es : List Event) : Prop :=
  ∀ e ∈ es, e.noAck = false

/-- A complete operation ends its session. -/
theorem Completes.ended {r : Result σ Reading} (h : Completes whole sigs r) :
    Ended busSigns r.events :=
  h.ends.imp (fun hfull => hfull.2.1) (fun hzero => hzero.2.1)

/-- An operation that is acknowledged throughout has its whole result. -/
theorem Completes.of_acked {r : Result σ Reading} (h : Completes whole sigs r)
    (hacked : Acked r.events) :
    r.value.result = whole ∧ r.events.filterMap Event.signals = sigs := by
  rcases h.ends with ⟨hresult, -, hsig⟩ | ⟨-, habort, -⟩
  · exact ⟨hresult, hsig⟩
  · exact absurd hacked habort.not_forall_not_fails

/-- An operation that is refused returns zero and reads nothing. -/
theorem Completes.of_not_acked {r : Result σ Reading} (h : Completes whole sigs r)
    (hacked : ¬ Acked r.events) :
    r.value.result = 0 ∧ r.events.filterMap Event.signals = [] := by
  rcases h.ends with ⟨-, hfinished, -⟩ | ⟨hresult, -, hsig⟩
  · exact absurd hfinished.forall_not_fails hacked
  · exact ⟨hresult, hsig⟩

/-! ## The bus is left stopped -/

/-- The first event is a START. -/
def Begins (es : List Event) : Prop :=
  ∃ addr ack rest, es = .start addr ack :: rest

/-- The first byte opens with a start. -/
theorem i2cTxByte_begins (data : UInt8) (dev : σ) :
    Begins (i2cTxByte bus data (CR_START ||| CR_WRITE) dev).events := by
  have hstart : ((CR_START ||| CR_WRITE) &&& CR_START ≠ 0 : Bool) = true := by decide
  unfold i2cTxByte
  rw [hstart]
  cases hack : (bus.start dev data).1 with
  | true =>
      simp only [hack, if_true]
      exact ⟨data, true, _, rfl⟩
  | false =>
      simp only [hack, if_true, Bool.false_eq_true, if_false]
      exact ⟨data, false, _, rfl⟩

/-- What follows does not change how a run begins. -/
theorem Begins.follow {r : Result σ α} (h : Begins r.events) (f : α → σ → Result σ β) :
    Begins (r.follow f).events := by
  rcases h with ⟨addr, ack, rest, hes⟩
  rw [Result.events_follow, hes]
  exact ⟨addr, ack, rest ++ _, rfl⟩

/-- Every operation begins with a start. -/
theorem Call.run_begins (call : Call) (dev : σ) : Begins (call.run bus dev).events := by
  have hsend : ∀ dataAddr, Begins (i2cSendAddr bus dataAddr dev).events :=
    fun _ => (i2cTxByte_begins bus _ dev).follow _
  cases call with
  | writeByte dataAddr byte =>
      have hbyte : Begins (ls2kEepromWriteByte bus dataAddr byte dev).events :=
        (hsend dataAddr).follow _
      exact hbyte
  | writePage dataAddr buf count =>
      have hpage : Begins (ls2kEepromWritePage bus dataAddr buf count dev).events :=
        (hsend dataAddr).follow _
      exact hpage
  | readCur => exact (i2cTxByte_begins bus _ dev).follow _
  | readRand dataAddr => exact (hsend dataAddr).follow _
  | readSeq dataAddr count => exact (hsend dataAddr).follow _

/-- Whatever the device answers: the events of a call begin with a START, the bus is
stopped by the last of them and by no other, nothing is sent or received behind the
first byte that was not acknowledged, and a sequential read signals its end with the
last of its bytes and with no other; it receives none when a byte was not
acknowledged. -/
theorem eeprom_stops (call : Call) (dev : σ) :
    Begins (call.run bus dev).events ∧ ClosedOnce busSigns (call.run bus dev).events ∧
      Quiet busSigns (call.run bus dev).events ∧
      ∀ dataAddr count, call = .readSeq dataAddr count →
        (Acked (call.run bus dev).events →
            (call.run bus dev).events.filterMap Event.signals = endSignals count.toNat) ∧
          (¬ Acked (call.run bus dev).events →
            (call.run bus dev).events.filterMap Event.signals = []) := by
  have hsession := eeprom_session bus call dev
  refine ⟨call.run_begins bus dev, hsession.ended.closedOnce, hsession.ended.quiet, ?_⟩
  rintro dataAddr count rfl
  exact ⟨fun hacked => (hsession.of_acked hacked).2, fun hacked => (hsession.of_not_acked hacked).2⟩

/-! ## Reports -/

/-- What an operation is to return when every byte was acknowledged. -/
def Call.full : Call → Int
  | .writeByte _ _ | .readCur | .readRand _ => 1
  | .writePage _ _ count | .readSeq _ count => count

/-- How many bytes an operation is to store then. -/
def Call.stores : Call → Nat
  | .writeByte _ _ | .writePage _ _ _ => 0
  | .readCur | .readRand _ => 1
  | .readSeq _ count => count.toNat

/-- The operations on several bytes are called for at least one. -/
def Call.CountPos : Call → Prop
  | .writeByte _ _ | .readCur | .readRand _ => True
  | .writePage _ _ count | .readSeq _ count => 0 < count

/-- A call reports exactly what happened: the full result if and only if every byte
was acknowledged, with the bytes of the device stored, and zero otherwise; and a
random read succeeds whenever a sequential read of one byte does. -/
def Reports (call : Call) (dev : σ) : Prop :=
  ((call.run bus dev).value.result = call.full ↔ Acked (call.run bus dev).events) ∧
    (Acked (call.run bus dev).events →
      (call.run bus dev).value.stored = (call.run bus dev).events.filterMap Event.received ∧
        (call.run bus dev).value.stored.length = call.stores) ∧
    (¬ Acked (call.run bus dev).events → (call.run bus dev).value.result = 0) ∧
    ∀ dataAddr, call = .readRand dataAddr →
      (Call.run bus (.readSeq dataAddr 1) dev).value.result = 1 →
        (call.run bus dev).value.result = 1

/-- The device acknowledges the three bytes of a random read. -/
def AnswersRead (dataAddr : UInt8) (dev : σ) : Prop :=
  (bus.start dev CAT24C16_ADDR).1 = true ∧
    (bus.write (bus.start dev CAT24C16_ADDR).2 dataAddr).1 = true ∧
    (bus.start (bus.write (bus.start dev CAT24C16_ADDR).2 dataAddr).2
      (CAT24C16_ADDR ||| 0x1)).1 = true

/-- A byte received is a byte with or without a signal. -/
theorem length_received (es : List Event) :
    (es.filterMap Event.received).length = (es.filterMap Event.signals).length := by
  induction es with
  | nil => rfl
  | cons e es ih =>
      cases e with
      | read byte last => exact congrArg (· + 1) ih
      | start addr ack => exact ih
      | write byte ack => exact ih
      | stop again => exact ih

/-- One acknowledge bit for each byte read. -/
theorem length_endSignals (n : Nat) : (endSignals n).length = n := by
  cases n with
  | zero => rfl
  | succ n => simp [endSignals]

/-- One acknowledge bit for each byte stored. -/
theorem Call.length_signals (call : Call) : call.signals.length = call.stores := by
  cases call with
  | writeByte dataAddr byte => rfl
  | writePage dataAddr buf count => rfl
  | readCur => rfl
  | readRand dataAddr => rfl
  | readSeq dataAddr count => exact length_endSignals count.toNat

/-- What is stored at the end of a finished session. -/
theorem stored_of_acked {call : Call} {dev : σ} (hacked : Acked (call.run bus dev).events) :
    (call.run bus dev).value.stored = (call.run bus dev).events.filterMap Event.received ∧
      (call.run bus dev).value.stored.length = call.stores := by
  have hsession := eeprom_session bus call dev
  rw [hsession.stored]
  refine ⟨rfl, ?_⟩
  rw [length_received, (hsession.of_acked hacked).2, call.length_signals]

/-- A byte behind a start is the bus address. -/
theorem i2cTxByte_start (data : UInt8) (dev : σ) :
    i2cTxByte bus data (CR_START ||| CR_WRITE) dev =
      if (bus.start dev data).1 then
        { value := 0, dev := (bus.start dev data).2, events := [.start data true] }
      else
        { value := -1, dev := (bus.stop (bus.start dev data).2).2,
          events := [.start data false, .stop (bus.stop (bus.start dev data).2).1] } := by
  have hstart : ((CR_START ||| CR_WRITE) &&& CR_START ≠ 0 : Bool) = true := by decide
  unfold i2cTxByte
  rw [hstart]
  cases hack : (bus.start dev data).1 with
  | true => simp only [hack, if_true]
  | false => simp only [hack, if_true, Bool.false_eq_true, if_false, ls2kI2cStop]

/-- A byte without a start. -/
theorem i2cTxByte_write (data : UInt8) (dev : σ) :
    i2cTxByte bus data CR_WRITE dev =
      if (bus.write dev data).1 then
        { value := 0, dev := (bus.write dev data).2, events := [.write data true] }
      else
        { value := -1, dev := (bus.stop (bus.write dev data).2).2,
          events := [.write data false, .stop (bus.stop (bus.write dev data).2).1] } := by
  have hstart : (CR_WRITE &&& CR_START ≠ 0 : Bool) = false := by decide
  unfold i2cTxByte
  rw [hstart]
  cases hack : (bus.write dev data).1 with
  | true => simp only [hack, if_true, Bool.false_eq_true, if_false]
  | false => simp only [hack, Bool.false_eq_true, if_false, ls2kI2cStop]

/-- A run is acknowledged when both parts are. -/
theorem acked_append (es es' : List Event) : Acked (es ++ es') ↔ Acked es ∧ Acked es' :=
  List.forall_mem_append

/-- One event is acknowledged when it is not a refusal. -/
theorem acked_singleton (e : Event) : Acked [e] ↔ e.noAck = false :=
  List.forall_mem_singleton

/-- Two events are acknowledged when neither is a refusal. -/
theorem acked_pair (e e' : Event) : Acked [e, e'] ↔ e.noAck = false ∧ e'.noAck = false := by
  rw [← List.singleton_append, acked_append, acked_singleton, acked_singleton]

/-- The address is acknowledged when both of its bytes are. -/
theorem acked_i2cSendAddr_iff (dataAddr : UInt8) (dev : σ) :
    Acked (i2cSendAddr bus dataAddr dev).events ↔
      (bus.start dev CAT24C16_ADDR).1 = true ∧
        (bus.write (bus.start dev CAT24C16_ADDR).2 dataAddr).1 = true := by
  unfold i2cSendAddr
  rw [Result.events_follow, acked_append, i2cTxByte_start]
  cases hchip : (bus.start dev CAT24C16_ADDR).1 with
  | false => simp [acked_pair, Event.noAck]
  | true =>
      simp only [if_true, acked_singleton, Event.noAck, Bool.not_true, true_and, Int.lt_irrefl,
        if_false, Result.events_follow, acked_append, i2cTxByte_write]
      cases haddr : (bus.write (bus.start dev CAT24C16_ADDR).2 dataAddr).1 with
      | false => simp [acked_pair, Event.noAck]
      | true => simp [Event.noAck, Acked]

/-- The address is sent when both its bytes are acknowledged. -/
theorem i2cSendAddr_of_acked {dataAddr : UInt8} {dev : σ}
    (hchip : (bus.start dev CAT24C16_ADDR).1 = true)
    (haddr : (bus.write (bus.start dev CAT24C16_ADDR).2 dataAddr).1 = true) :
    (i2cSendAddr bus dataAddr dev).value = 1 ∧
      (i2cSendAddr bus dataAddr dev).dev =
        (bus.write (bus.start dev CAT24C16_ADDR).2 dataAddr).2 := by
  unfold i2cSendAddr Result.follow
  rw [i2cTxByte_start, if_pos hchip]
  simp only [Int.lt_irrefl, if_false]
  rw [i2cTxByte_write, if_pos haddr]
  exact ⟨rfl, rfl⟩

/-- What goes on behind the address. -/
theorem acked_behind_addr_iff (dataAddr : UInt8) (dev : σ) (bad : α) (f : σ → Result σ α) :
    Acked ((i2cSendAddr bus dataAddr dev).follow fun ok dev =>
        if ok = 0 then .done bad dev else f dev).events ↔
      (bus.start dev CAT24C16_ADDR).1 = true ∧
        (bus.write (bus.start dev CAT24C16_ADDR).2 dataAddr).1 = true ∧
          Acked (f (bus.write (bus.start dev CAT24C16_ADDR).2 dataAddr).2).events := by
  rw [Result.events_follow, acked_append, acked_i2cSendAddr_iff, and_assoc]
  apply and_congr_right
  intro hchip
  apply and_congr_right
  intro haddr
  rcases i2cSendAddr_of_acked bus hchip haddr with ⟨hvalue, hdev⟩
  rw [hvalue, hdev, if_neg Int.one_ne_zero]

/-- What goes on behind the START of a read. -/
theorem acked_behind_start_iff (dev : σ) (bad : α) (f : σ → Result σ α) :
    Acked ((i2cTxByte bus (CAT24C16_ADDR ||| 0x1) (CR_START ||| CR_WRITE) dev).follow
        fun sent dev => if sent < 0 then .done bad dev else f dev).events ↔
      (bus.start dev (CAT24C16_ADDR ||| 0x1)).1 = true ∧
        Acked (f (bus.start dev (CAT24C16_ADDR ||| 0x1)).2).events := by
  rw [Result.events_follow, acked_append, i2cTxByte_start]
  cases hchip : (bus.start dev (CAT24C16_ADDR ||| 0x1)).1 with
  | false => simp [acked_pair, Event.noAck]
  | true => simp [acked_singleton, Event.noAck]

/-- A random read is acknowledged exactly when the chip answers its three address
bytes. -/
theorem acked_readRand_iff (dataAddr : UInt8) (dev : σ) :
    Acked (Call.run bus (.readRand dataAddr) dev).events ↔ AnswersRead bus dataAddr dev := by
  unfold AnswersRead
  have hbyte : ∀ dev, Acked (i2cRxByte bus CR_READ dev).events := by
    intro dev
    exact (acked_singleton _).mpr rfl
  apply (acked_behind_addr_iff bus dataAddr dev _ _).trans
  apply and_congr_right
  intro _
  apply and_congr_right
  intro _
  rw [Result.events_follow, Result.events_done, List.append_nil]
  apply (acked_behind_start_iff bus _ _ _).trans
  apply and_iff_left
  exact (acked_append _ _).mpr ⟨hbyte _, (acked_singleton _).mpr rfl⟩

/-- A sequential read is acknowledged exactly when the chip answers its three address
bytes. -/
theorem acked_readSeq_iff (dataAddr : UInt8) (count : Int) (dev : σ) :
    Acked (Call.run bus (.readSeq dataAddr count) dev).events ↔ AnswersRead bus dataAddr dev := by
  unfold AnswersRead
  have hcount : count.toNat = 0 ∨ ((0 + count.toNat : Nat) : Int) = count := by omega
  apply (acked_behind_addr_iff bus dataAddr dev _ _).trans
  apply and_congr_right
  intro _
  apply and_congr_right
  intro _
  apply (acked_behind_start_iff bus _ _ _).trans
  apply and_iff_left
  exact (readSeqFrom_spec bus hcount _).2.1.forall_not_fails

/-- The operations that return what they are to return. -/
theorem Call.returned_eq {call : Call} (hpos : call.CountPos)
    (hrand : ∀ dataAddr, call ≠ .readRand dataAddr) :
    call.returned = call.full ∧ call.full ≠ 0 := by
  cases call with
  | writeByte dataAddr byte => exact ⟨rfl, Int.one_ne_zero⟩
  | writePage dataAddr buf count =>
      exact ⟨Int.toNat_of_nonneg (Int.le_of_lt hpos), Int.ne_of_gt hpos⟩
  | readCur => exact ⟨rfl, Int.one_ne_zero⟩
  | readRand dataAddr => exact absurd rfl (hrand dataAddr)
  | readSeq dataAddr count => exact ⟨Int.toNat_of_nonneg (Int.le_of_lt hpos), Int.ne_of_gt hpos⟩

/-- A random read returns zero. -/
theorem readRand_result (dataAddr : UInt8) (dev : σ) :
    (Call.run bus (.readRand dataAddr) dev).value.result = 0 := by
  rcases (eeprom_session bus (.readRand dataAddr) dev).ends with ⟨hresult, -⟩ | ⟨hresult, -⟩
  · exact hresult
  · exact hresult

/-- A random read reports rightly exactly when the chip does not answer it. -/
theorem reports_readRand_iff (dataAddr : UInt8) (dev : σ) :
    Reports bus (.readRand dataAddr) dev ↔ ¬ AnswersRead bus dataAddr dev := by
  have hresult := readRand_result bus dataAddr dev
  rw [← acked_readRand_iff]
  constructor
  · rintro ⟨hfull, -⟩ hacked
    have hone := hfull.mpr hacked
    rw [hresult] at hone
    exact Int.zero_ne_one hone
  · intro hacked
    refine ⟨?_, fun h => absurd h hacked, fun _ => hresult, ?_⟩
    · rw [hresult]
      exact iff_of_false Int.zero_ne_one hacked
    · -- the sequential read of one byte sends the same bytes, so it fails as well
      intro dataAddr' heq hseq
      cases heq
      have hfailed : ¬ Acked (Call.run bus (.readSeq dataAddr 1) dev).events := by
        rw [acked_readSeq_iff, ← acked_readRand_iff]
        exact hacked
      have hzero := ((eeprom_session bus (.readSeq dataAddr 1) dev).of_not_acked hfailed).1
      exact absurd (hseq.symm.trans hzero) Int.one_ne_zero

/-- A call reports exactly what happened, unless it is a random read of a device
that acknowledges all three bytes; that one returns zero all the same. -/
theorem eeprom_reports_iff (call : Call) (dev : σ) (hpos : call.CountPos) :
    Reports bus call dev ↔
      ¬ ∃ dataAddr, call = .readRand dataAddr ∧ AnswersRead bus dataAddr dev := by
  by_cases hrand : ∃ dataAddr, call = .readRand dataAddr
  · rcases hrand with ⟨dataAddr, rfl⟩
    rw [reports_readRand_iff]
    simp
  · have hsession := eeprom_session bus call dev
    rcases Call.returned_eq hpos fun dataAddr heq => hrand ⟨dataAddr, heq⟩ with ⟨hfull, hne⟩
    rw [hfull] at hsession
    apply iff_of_true
    · refine ⟨?_, stored_of_acked bus, fun hacked => (hsession.of_not_acked hacked).1, ?_⟩
      · constructor
        · intro hresult
          by_contra hacked
          exact hne (hresult.symm.trans (hsession.of_not_acked hacked).1)
        · exact fun hacked => (hsession.of_acked hacked).1
      · exact fun dataAddr heq => absurd ⟨dataAddr, heq⟩ hrand
    · rintro ⟨dataAddr, heq, -⟩
      exact hrand ⟨dataAddr, heq⟩

end Sessions

/-- A device that acknowledges everything and sends one byte again and again. -/
def alwaysAcks : Bus Unit where
  start _ _ := (true, ())
  write _ _ := (true, ())
  read _ _ := (0x5A, ())
  stop _ := (0, ())

/-- A page of two bytes on such a device. -/
theorem eeprom_reports_page :
    Call.CountPos (.writePage 0x10 (fun _ => 0x55) 2) ∧
      Reports alwaysAcks (.writePage 0x10 (fun _ => 0x55) 2) () := by
  have hpos : Call.CountPos (.writePage 0x10 (fun _ => 0x55) 2) := Int.succ_ofNat_pos 1
  refine ⟨hpos, (eeprom_reports_iff alwaysAcks _ () hpos).mpr ?_⟩
  rintro ⟨dataAddr, heq, -⟩
  exact Call.noConfusion heq

/-- A random read of such a device stores its byte and returns zero; a sequential
read of one byte returns one. -/
theorem readRand_returns_zero :
    (Call.run alwaysAcks (.readRand 0x10) ()).value = ⟨0, [0x5A]⟩ ∧
      (Call.run alwaysAcks (.readRand 0x10) ()).events =
        [.start 0xA0 true, .write 0x10 true, .start 0xA1 true, .read 0x5A false, .stop 0] ∧
      (Call.run alwaysAcks (.readSeq 0x10 1) ()).value = ⟨1, [0x5A]⟩ ∧
      ¬ Reports alwaysAcks (.readRand 0x10) () := by
  refine ⟨rfl, by decide, by decide, ?_⟩
  rintro ⟨hfull, -⟩
  have hone := hfull.mpr ((acked_readRand_iff alwaysAcks 0x10 ()).mpr ⟨rfl, rfl, rfl⟩)
  rw [readRand_result] at hone
  exact Int.zero_ne_one hone

end I2c
end Ls2kMorse
