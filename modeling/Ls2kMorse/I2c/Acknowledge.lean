import Ls2kMorse.I2c.Driver

/-!
# Answers of the slave

An I2C transfer is of use only if the slave has acknowledged what it was sent.
This module runs the driver against an arbitrary pattern of answers and says for
which patterns a result of zero means success, and for which ones a transfer
falls silent after an unacknowledged byte.

Main results:

- Theorem `quiet_transferMsgs_iff`: when a transfer puts no data byte behind one
  that was not acknowledged.
- Theorem `allAcknowledged_transferMsgs_iff`: when all messages that a transfer
  begins are acknowledged.
- Theorem `i2c_answers_iff`: the two for the functions of the driver.
-/

namespace Ls2kMorse
namespace I2c

/-! ## Patterns of answers -/

/-- Answers of a slave: to the bytes it is sent, by their number, the bytes it
sends itself, and for how long the bus stays busy after a STOP. -/
structure Pattern where
  ack : Nat → Bool
  byte : Nat → UInt8
  busy : Nat → Nat

/-- How many bytes and STOPs there have been. -/
structure Count where
  sent : Nat
  received : Nat
  stops : Nat
deriving Repr, DecidableEq

/-- The slave that answers by a pattern. -/
def Pattern.bus (p : Pattern) : Bus Count where
  start s _ := (p.ack s.sent, { s with sent := s.sent + 1 })
  write s _ := (p.ack s.sent, { s with sent := s.sent + 1 })
  read s _ := (p.byte s.received, { s with received := s.received + 1 })
  stop s := (p.busy s.stops, { s with stops := s.stops + 1 })

/-- The place behind the first acknowledge from place `n` on, when it comes within
`retry` further attempts. -/
def answered (ack : Nat → Bool) : Nat → Nat → Option Nat
  | retry, n =>
      if ack n then some (n + 1)
      else
        match retry with
        | 0 => none
        | retry + 1 => answered ack retry (n + 1)

/-- The `len` bytes from place `n` on are acknowledged. -/
def AllAcked (ack : Nat → Bool) (n len : Nat) : Prop :=
  ∀ i, i < len → ack (n + i) = true

/-- How many of `len` bytes are sent when the first one without an acknowledge is
the last. -/
def sentBy (ack : Nat → Bool) : Nat → Nat → Nat
  | _, 0 => 0
  | n, len + 1 => if ack n then sentBy ack (n + 1) len + 1 else 1

/-! ## Properties of events -/

/-- Whether the event sends a byte. -/
def Event.isWrite : Event → Bool
  | .write _ _ => true
  | _ => false

/-- A data byte that was not acknowledged. -/
def Event.isNak : Event → Bool
  | .write _ ack => !ack
  | _ => false

/-- Some byte of the run was not acknowledged. -/
def HasNak (es : List Event) : Prop :=
  ∃ e ∈ es, e.isNak = true

/-- The run sends no byte. -/
def NoWrite (es : List Event) : Prop :=
  ∀ e ∈ es, e.isWrite = false

/-- No data byte is put on the bus behind one that was not acknowledged. -/
def QuietAfterNak (es : List Event) : Prop :=
  es.Pairwise fun e e' => e.isNak = true → e'.isWrite = false

/-- If a message was started, an address byte was acknowledged; so was every data
byte that was written. -/
def Acknowledged (es : List Event) : Prop :=
  ((∃ addr ack, .start addr ack ∈ es) → ∃ addr, .start addr true ∈ es) ∧ ¬ HasNak es

/-- Only a byte sent can be refused. -/
theorem isWrite_of_isNak {e : Event} (h : e.isNak = true) : e.isWrite = true := by
  cases e with
  | write byte ack => rfl
  | start addr ack => exact absurd h Bool.false_ne_true
  | read byte last => exact absurd h Bool.false_ne_true
  | stop again => exact absurd h Bool.false_ne_true

/-- Where nothing is sent nothing is refused. -/
theorem not_hasNak_of_noWrite {es : List Event} (h : NoWrite es) : ¬ HasNak es := by
  rintro ⟨e, he, hnak⟩
  exact Bool.false_ne_true ((h e he).symm.trans (isWrite_of_isNak hnak))

/-- A run without a refusal is quiet after it. -/
theorem quietAfterNak_of_not_hasNak {es : List Event} (h : ¬ HasNak es) : QuietAfterNak es := by
  apply List.pairwise_of_forall_mem_list
  intro e he e' _ hnak
  exact absurd ⟨e, he, hnak⟩ h

/-- A refusal in either part. -/
theorem hasNak_append (es es' : List Event) : HasNak (es ++ es') ↔ HasNak es ∨ HasNak es' := by
  unfold HasNak
  simp only [List.mem_append, or_and_right, exists_or]

/-- Nothing is sent in both parts. -/
theorem noWrite_append (es es' : List Event) : NoWrite (es ++ es') ↔ NoWrite es ∧ NoWrite es' := by
  unfold NoWrite
  simp only [List.mem_append, or_imp, forall_and]

/-- After a refusal in the first part the second sends nothing. -/
theorem quietAfterNak_append (es es' : List Event) :
    QuietAfterNak (es ++ es') ↔
      QuietAfterNak es ∧ QuietAfterNak es' ∧ (HasNak es → NoWrite es') := by
  unfold QuietAfterNak
  rw [List.pairwise_append]
  apply and_congr_right
  intro _
  apply and_congr_right
  intro _
  constructor
  · rintro h ⟨e, he, hnak⟩ e' he'
    exact h e he e' he' hnak
  · intro h e he e' he' hnak
    exact h ⟨e, he, hnak⟩ e' he'

/-- Quiet, and without any data byte if there was an unacknowledged one before. -/
def QuietBehind (nak : Prop) (es : List Event) : Prop :=
  QuietAfterNak es ∧ (nak → NoWrite es)

/-- A part that sends nothing is quiet behind anything. -/
theorem quietBehind_of_noWrite {es : List Event} (nak : Prop) (h : NoWrite es) :
    QuietBehind nak es :=
  ⟨quietAfterNak_of_not_hasNak (not_hasNak_of_noWrite h), fun _ => h⟩

/-- What was unacknowledged in front counts for what comes behind. -/
theorem quietBehind_append (nak : Prop) (es es' : List Event) :
    QuietBehind nak (es ++ es') ↔ QuietBehind nak es ∧ QuietBehind (nak ∨ HasNak es) es' := by
  unfold QuietBehind
  rw [quietAfterNak_append, noWrite_append]
  constructor
  · rintro ⟨⟨hes, hes', hnak⟩, hwrite⟩
    refine ⟨⟨hes, fun h => (hwrite h).1⟩, hes', ?_⟩
    rintro (h | h)
    · exact (hwrite h).2
    · exact hnak h
  · rintro ⟨⟨hes, hwrite⟩, hes', hwrite'⟩
    exact ⟨⟨hes, hes', fun h => hwrite' (Or.inr h)⟩, fun h => ⟨hwrite h, hwrite' (Or.inl h)⟩⟩

/-! ## Bytes against a pattern -/

variable (p : Pattern)

/-- A stop sends no byte. -/
theorem noWrite_stop (s : Count) : NoWrite (ls2kI2cStop p.bus s).events := by
  intro e he
  rcases List.mem_singleton.mp he with rfl
  rfl

/-- The start phase ends behind the first acknowledge, or without one. -/
theorem startAttempts_value (addr : UInt8) (retry : Nat) (s : Count) :
    (startAttempts p.bus addr retry s).value = (answered p.ack retry s.sent).isSome := by
  induction retry generalizing s with
  | zero =>
      unfold startAttempts answered
      cases hack : p.ack s.sent <;> simp [Pattern.bus, hack]
  | succ retry ih =>
      unfold startAttempts answered
      cases hack : p.ack s.sent with
      | true => simp [Pattern.bus, hack]
      | false =>
          have hnext := ih { s with sent := s.sent + 1, stops := s.stops + 1 }
          simpa [Pattern.bus, hack, ls2kI2cStop] using hnext

/-- A start that is answered has used the answers before it. -/
theorem startAttempts_sent (addr : UInt8) {retry n : Nat} {s : Count}
    (h : answered p.ack retry s.sent = some n) :
    (startAttempts p.bus addr retry s).dev.sent = n := by
  induction retry generalizing s with
  | zero =>
      unfold answered at h
      unfold startAttempts
      cases hack : p.ack s.sent with
      | true => simpa [Pattern.bus, hack] using h
      | false => simp [hack] at h
  | succ retry ih =>
      unfold answered at h
      unfold startAttempts
      cases hack : p.ack s.sent with
      | true => simpa [Pattern.bus, hack] using h
      | false =>
          rw [hack] at h
          have hnext := ih (s := { s with sent := s.sent + 1, stops := s.stops + 1 }) h
          simpa [Pattern.bus, hack, ls2kI2cStop] using hnext

/-- The start phase puts address bytes and STOPs on the bus; one of them is
acknowledged exactly when the start succeeds. -/
theorem startAttempts_events (addr : UInt8) (retry : Nat) (s : Count) :
    NoWrite (startAttempts p.bus addr retry s).events ∧
      (∃ ack, .start addr ack ∈ (startAttempts p.bus addr retry s).events) ∧
      ((∃ a, .start a true ∈ (startAttempts p.bus addr retry s).events) ↔
        (startAttempts p.bus addr retry s).value = true) := by
  induction retry generalizing s with
  | zero =>
      unfold startAttempts
      cases hack : p.ack s.sent <;>
        simp [Pattern.bus, hack, ls2kI2cStop, NoWrite, Event.isWrite]
  | succ retry ih =>
      unfold startAttempts
      cases hack : p.ack s.sent with
      | true => simp [Pattern.bus, hack, NoWrite, Event.isWrite]
      | false =>
          rcases ih { s with sent := s.sent + 1, stops := s.stops + 1 } with ⟨hwrite, -, hacked⟩
          refine ⟨?_, ⟨false, ?_⟩, ?_⟩
          · intro e he
            simp only [Pattern.bus, hack, ls2kI2cStop, Bool.false_eq_true, if_false,
              List.mem_cons, List.cons_append, List.nil_append] at he
            rcases he with rfl | rfl | he
            · rfl
            · rfl
            · exact hwrite e he
          · simp [Pattern.bus, hack]
          · simpa [Pattern.bus, hack, ls2kI2cStop] using hacked

/-- Reads put no data byte on the bus and no address byte either. -/
theorem ls2kI2cRead_events (count : Nat) (s : Count) :
    (ls2kI2cRead p.bus count s).dev.sent = s.sent ∧
      ∀ e ∈ (ls2kI2cRead p.bus count s).events, ∃ byte last, e = .read byte last := by
  induction count generalizing s with
  | zero => exact ⟨rfl, fun e he => absurd he List.not_mem_nil⟩
  | succ count ih =>
      rcases ih { s with received := s.received + 1 } with ⟨hsent, hevents⟩
      unfold ls2kI2cRead
      refine ⟨hsent, ?_⟩
      intro e he
      rcases List.mem_cons.mp he with rfl | he
      · exact ⟨_, _, rfl⟩
      · exact hevents e he

/-- All bytes are acknowledged: the first and the others. -/
theorem allAcked_succ (ack : Nat → Bool) (n len : Nat) :
    AllAcked ack n (len + 1) ↔ ack n = true ∧ AllAcked ack (n + 1) len := by
  unfold AllAcked
  constructor
  · intro h
    refine ⟨h 0 (Nat.succ_pos len), ?_⟩
    intro i hi
    have hnext := h (i + 1) (Nat.succ_lt_succ hi)
    rwa [Nat.add_comm i 1, ← Nat.add_assoc] at hnext
  · rintro ⟨hfirst, hrest⟩ i hi
    cases i with
    | zero => exact hfirst
    | succ i =>
        rw [Nat.add_comm i 1, ← Nat.add_assoc]
        exact hrest i (Nat.lt_of_succ_lt_succ hi)

/-- All bytes of two runs are acknowledged: those of each. -/
theorem allAcked_add (ack : Nat → Bool) (n len len' : Nat) :
    AllAcked ack n (len + len') ↔ AllAcked ack n len ∧ AllAcked ack (n + len) len' := by
  induction len generalizing n with
  | zero => simp [AllAcked]
  | succ len ih =>
      rw [Nat.succ_add, allAcked_succ, allAcked_succ, ih, and_assoc, Nat.succ_add_eq_add_succ]

/-- When all bytes are acknowledged all are sent. -/
theorem sentBy_of_allAcked {ack : Nat → Bool} {n len : Nat} (h : AllAcked ack n len) :
    sentBy ack n len = len := by
  induction len generalizing n with
  | zero => rfl
  | succ len ih =>
      rcases (allAcked_succ ack n len).mp h with ⟨hfirst, hrest⟩
      rw [sentBy, if_pos hfirst, ih hrest]

/-- A write sends the bytes up to the first refusal. -/
theorem writeBytes_sent (i : Nat) (buf : List UInt8) (s : Count) :
    (writeBytes p.bus i buf s).dev.sent = s.sent + sentBy p.ack s.sent buf.length := by
  induction buf generalizing i s with
  | nil => rfl
  | cons byte buf ih =>
      have hnext := ih (i + 1) { s with sent := s.sent + 1 }
      rw [writeBytes, List.length_cons, sentBy]
      cases hack : p.ack s.sent with
      | true =>
          simp only [Pattern.bus, hack, if_true] at hnext ⊢
          omega
      | false => simp [Pattern.bus, hack, ls2kI2cStop]

/-- A byte loop meets an unacknowledged byte exactly when not all of its bytes are
acknowledged. -/
theorem writeBytes_hasNak_iff (i : Nat) (buf : List UInt8) (s : Count) :
    HasNak (writeBytes p.bus i buf s).events ↔ ¬ AllAcked p.ack s.sent buf.length := by
  induction buf generalizing i s with
  | nil =>
      have hall : AllAcked p.ack s.sent 0 := fun i hi => absurd hi (Nat.not_lt_zero i)
      simp [writeBytes, HasNak, hall]
  | cons byte buf ih =>
      have hnext := ih (i + 1) { s with sent := s.sent + 1 }
      rw [writeBytes, List.length_cons, allAcked_succ]
      unfold HasNak at hnext ⊢
      cases hack : p.ack s.sent with
      | true => simpa [Pattern.bus, hack, Event.isNak] using hnext
      | false => simp [Pattern.bus, hack, Event.isNak]

/-- A byte loop itself falls silent at the first unacknowledged byte. -/
theorem writeBytes_quiet (i : Nat) (buf : List UInt8) (s : Count) :
    QuietAfterNak (writeBytes p.bus i buf s).events := by
  induction buf generalizing i s with
  | nil => exact List.Pairwise.nil
  | cons byte buf ih =>
      have hnext := ih (i + 1) { s with sent := s.sent + 1 }
      rw [writeBytes]
      unfold QuietAfterNak at hnext ⊢
      cases hack : p.ack s.sent with
      | true => simpa [Pattern.bus, hack, Event.isNak] using hnext
      | false => simp [Pattern.bus, hack, ls2kI2cStop, Event.isWrite]

/-- A write sends nothing exactly when it has no bytes. -/
theorem writeBytes_noWrite_iff (i : Nat) (buf : List UInt8) (s : Count) :
    NoWrite (writeBytes p.bus i buf s).events ↔ buf.length = 0 := by
  cases buf with
  | nil => simp [writeBytes, NoWrite]
  | cons byte buf =>
      rw [writeBytes]
      unfold NoWrite
      cases hack : p.ack s.sent <;> simp [Pattern.bus, hack, Event.isWrite]

/-- A write has no start condition. -/
theorem writeBytes_no_start (i : Nat) (buf : List UInt8) (s : Count) (addr : UInt8)
    (ack : Bool) : .start addr ack ∉ (writeBytes p.bus i buf s).events := by
  induction buf generalizing i s with
  | nil => exact List.not_mem_nil
  | cons byte buf ih =>
      have hnext := ih (i + 1) { s with sent := s.sent + 1 }
      rw [writeBytes]
      cases hack : p.ack s.sent with
      | true => simpa [Pattern.bus, hack] using hnext
      | false => simp [Pattern.bus, hack, ls2kI2cStop]

/-! ## Messages against a pattern -/

/-- The place behind the start phase of a message, none when its address is not
acknowledged. -/
def startsAt (ack : Nat → Bool) (m : I2cMsg) (n : Nat) : Option Nat :=
  if m.flags &&& I2C_M_NOSTART = 0 then answered ack 5 n else some n

/-- No message with data bytes is written behind a written message that was not
acknowledged throughout.  The first argument says whether there was one already,
the second is the number of bytes sent so far. -/
def StaysQuiet (ack : Nat → Bool) : Prop → Nat → List I2cMsg → Prop
  | _, _, [] => True
  | nak, n, m :: msgs =>
      match startsAt ack m n with
      | none => True
      | some n =>
          if m.flags &&& I2C_M_RD ≠ 0 then StaysQuiet ack nak n msgs
          else
            (nak → m.len.toNat = 0) ∧
              StaysQuiet ack (nak ∨ ¬ AllAcked ack n m.len.toNat)
                (n + sentBy ack n m.len.toNat) msgs

/-- A message is begun exactly when its start is answered. -/
theorem startMsg_value (m : I2cMsg) (s : Count) :
    (startMsg p.bus m s).value = (startsAt p.ack m s.sent).isSome := by
  unfold startMsg startsAt
  by_cases hstart : m.flags &&& I2C_M_NOSTART = 0
  · rw [if_pos hstart, if_pos hstart]
    exact startAttempts_value p _ 5 s
  · rw [if_neg hstart, if_neg hstart]
    rfl

/-- A message that is begun has used the answers of its start. -/
theorem startMsg_sent {m : I2cMsg} {s : Count} {n : Nat} (h : startsAt p.ack m s.sent = some n) :
    (startMsg p.bus m s).dev.sent = n := by
  unfold startsAt at h
  unfold startMsg
  by_cases hstart : m.flags &&& I2C_M_NOSTART = 0
  · rw [if_pos hstart] at h ⊢
    exact startAttempts_sent p _ h
  · rw [if_neg hstart] at h ⊢
    exact Option.some.inj h

/-- A start sends no data byte. -/
theorem startMsg_noWrite (m : I2cMsg) (s : Count) : NoWrite (startMsg p.bus m s).events := by
  unfold startMsg
  by_cases hstart : m.flags &&& I2C_M_NOSTART = 0
  · rw [if_pos hstart]
    exact (startAttempts_events p _ 5 s).1
  · rw [if_neg hstart]
    exact fun e he => absurd he List.not_mem_nil

/-- The start phase of a message has an acknowledged address byte if it has any
and succeeds, and has only unacknowledged ones if it fails. -/
theorem startMsg_acked_iff (m : I2cMsg) (s : Count) :
    ((∃ addr ack, .start addr ack ∈ (startMsg p.bus m s).events) →
        ∃ addr, .start addr true ∈ (startMsg p.bus m s).events) ↔
      (startMsg p.bus m s).value = true := by
  unfold startMsg
  by_cases hstart : m.flags &&& I2C_M_NOSTART = 0
  · rw [if_pos hstart]
    rcases startAttempts_events p m.addr.toUInt8 5 s with ⟨-, ⟨ack, hany⟩, hacked⟩
    unfold ls2kI2cStart
    rw [← hacked]
    exact imp_iff_right ⟨_, ack, hany⟩
  · rw [if_neg hstart]
    simp

/-- A message that is read only reads. -/
theorem moveMsg_read {m : I2cMsg} (hread : m.flags &&& I2C_M_RD ≠ 0) (s : Count) :
    (moveMsg p.bus m s).dev.sent = s.sent ∧
      ∀ e ∈ (moveMsg p.bus m s).events, ∃ byte last, e = .read byte last := by
  unfold moveMsg
  rw [if_pos hread]
  exact ls2kI2cRead_events p m.len.toNat s

/-- A message that is read sends nothing. -/
theorem moveMsg_read_noWrite {m : I2cMsg} (hread : m.flags &&& I2C_M_RD ≠ 0) (s : Count) :
    NoWrite (moveMsg p.bus m s).events := by
  intro e he
  rcases (moveMsg_read p hread s).2 e he with ⟨byte, last, rfl⟩
  rfl

/-- The data phase of a message contains no address byte. -/
theorem moveMsg_no_start (m : I2cMsg) (s : Count) (addr : UInt8) (ack : Bool) :
    .start addr ack ∉ (moveMsg p.bus m s).events := by
  by_cases hread : m.flags &&& I2C_M_RD ≠ 0
  · intro hmem
    rcases (moveMsg_read p hread s).2 _ hmem with ⟨byte, last, heq⟩
    exact Event.noConfusion heq
  · unfold moveMsg
    rw [if_neg hread]
    exact writeBytes_no_start p 0 m.bytes s addr ack

/-- A message that is written sends the bytes up to the first refusal. -/
theorem moveMsg_write {m : I2cMsg} (hwrite : ¬ m.flags &&& I2C_M_RD ≠ 0) (s : Count) :
    (moveMsg p.bus m s).dev.sent = s.sent + sentBy p.ack s.sent m.len.toNat ∧
      (HasNak (moveMsg p.bus m s).events ↔ ¬ AllAcked p.ack s.sent m.len.toNat) ∧
      (NoWrite (moveMsg p.bus m s).events ↔ m.len.toNat = 0) := by
  unfold moveMsg
  rw [if_neg hwrite, ← m.length_bytes]
  exact ⟨writeBytes_sent p 0 m.bytes s, writeBytes_hasNak_iff p 0 m.bytes s,
    writeBytes_noWrite_iff p 0 m.bytes s⟩

/-- Within a message nothing is sent after a refusal. -/
theorem moveMsg_quiet (m : I2cMsg) (s : Count) : QuietAfterNak (moveMsg p.bus m s).events := by
  by_cases hread : m.flags &&& I2C_M_RD ≠ 0
  · exact quietAfterNak_of_not_hasNak (not_hasNak_of_noWrite (moveMsg_read_noWrite p hread s))
  · unfold moveMsg
    rw [if_neg hread]
    exact writeBytes_quiet p 0 m.bytes s

/-- The events of a transfer that goes on to further messages. -/
theorem events_transferMsgs_cons {m : I2cMsg} {s : Count} (msgs : List I2cMsg) (i : Nat)
    (h : (startMsg p.bus m s).value = true) :
    (transferMsgs p.bus i (m :: msgs) s).events =
      (startMsg p.bus m s).events ++ ((moveMsg p.bus m (startMsg p.bus m s).dev).events ++
        (transferMsgs p.bus (i + 1) msgs
          (moveMsg p.bus m (startMsg p.bus m s).dev).dev).events) := by
  rw [transferMsgs]
  simp only [h, if_true, Transfer.events, List.flatMap_cons, List.append_assoc]

/-- A start that nobody answers ends the transfer. -/
theorem events_transferMsgs_unanswered {m : I2cMsg} {s : Count} (msgs : List I2cMsg) (i : Nat)
    (h : (startMsg p.bus m s).value = false) :
    (transferMsgs p.bus i (m :: msgs) s).events = (startMsg p.bus m s).events := by
  rw [transferMsgs]
  simp [h, Transfer.events]

/-- From any message on: with `nak` for an unacknowledged byte in front of it, no
data byte follows one exactly when the rest stays quiet. -/
theorem quiet_transferMsgs_iff (nak : Prop) (i : Nat) (msgs : List I2cMsg) (s : Count) :
    QuietBehind nak (transferMsgs p.bus i msgs s).events ↔ StaysQuiet p.ack nak s.sent msgs := by
  induction msgs generalizing nak i s with
  | nil => exact iff_of_true (quietBehind_of_noWrite nak (noWrite_stop p s)) trivial
  | cons m msgs ih =>
      have hfirst := startMsg_noWrite p m s
      have hvalue := startMsg_value p m s
      rw [StaysQuiet]
      cases hstart : startsAt p.ack m s.sent with
      | none =>
          rw [hstart] at hvalue
          rw [events_transferMsgs_unanswered p msgs i hvalue]
          exact iff_of_true (quietBehind_of_noWrite nak hfirst) trivial
      | some n =>
          rw [hstart] at hvalue
          have hsent := startMsg_sent p hstart
          rw [events_transferMsgs_cons p msgs i hvalue, quietBehind_append, quietBehind_append,
            and_iff_right (quietBehind_of_noWrite nak hfirst), ih]
          simp only [not_hasNak_of_noWrite hfirst, or_false]
          by_cases hread : m.flags &&& I2C_M_RD ≠ 0
          · -- a message that is read puts nothing on the bus
            have hnone := moveMsg_read_noWrite p hread (startMsg p.bus m s).dev
            rw [(moveMsg_read p hread _).1, hsent,
              and_iff_right (quietBehind_of_noWrite nak hnone)]
            simp only [not_hasNak_of_noWrite hnone, or_false, if_pos hread]
          · rcases moveMsg_write p hread (startMsg p.bus m s).dev with ⟨hsent', hnak, hnone⟩
            rw [hsent', hsent, hnak, hsent, QuietBehind, hnone,
              and_iff_right (moveMsg_quiet p m _)]
            simp only [if_neg hread]

/-! ## Acknowledged transfers -/

/-- The messages that a transfer has begun are all acknowledged. -/
def AllAcknowledged {σ : Type} (t : Transfer σ) : Prop :=
  ∀ run ∈ t.runs, Acknowledged run.events

/-- All messages are answered: their addresses, and their bytes when they are
written. -/
def AnswersAll (ack : Nat → Bool) : Nat → List I2cMsg → Prop
  | _, [] => True
  | n, m :: msgs =>
      match startsAt ack m n with
      | none => False
      | some n =>
          if m.flags &&& I2C_M_RD ≠ 0 then AnswersAll ack n msgs
          else AllAcked ack n m.len.toNat ∧ AnswersAll ack (n + m.len.toNat) msgs

/-- A message is acknowledged when its address is answered and no byte of it is
unacknowledged. -/
theorem acknowledged_msg_iff (m : I2cMsg) (s s' : Count) :
    Acknowledged ((startMsg p.bus m s).events ++ (moveMsg p.bus m s').events) ↔
      (startMsg p.bus m s).value = true ∧ ¬ HasNak (moveMsg p.bus m s').events := by
  have hfirst := not_hasNak_of_noWrite (startMsg_noWrite p m s)
  unfold Acknowledged
  rw [← startMsg_acked_iff, hasNak_append, not_or, and_iff_right hfirst]
  simp only [List.mem_append, moveMsg_no_start p m s', or_false]

/-- A transfer is acknowledged throughout exactly when the slave answers each of its
bytes. -/
theorem allAcknowledged_transferMsgs_iff (i : Nat) (msgs : List I2cMsg) (s : Count) :
    AllAcknowledged (transferMsgs p.bus i msgs s) ↔ AnswersAll p.ack s.sent msgs := by
  unfold AllAcknowledged
  induction msgs generalizing i s with
  | nil => exact iff_of_true (fun run hrun => absurd hrun List.not_mem_nil) trivial
  | cons m msgs ih =>
      have hvalue := startMsg_value p m s
      rw [AnswersAll, transferMsgs]
      cases hstart : startsAt p.ack m s.sent with
      | none =>
          rw [hstart] at hvalue
          simp only [hvalue, Option.isSome_none, Bool.false_eq_true, if_false, List.mem_singleton,
            forall_eq]
          rw [iff_false]
          intro hacked
          have hstarted := (startMsg_acked_iff p m s).mp hacked.1
          rw [hvalue] at hstarted
          exact Bool.false_ne_true hstarted
      | some n =>
          rw [hstart, Option.isSome_some] at hvalue
          have hsent := startMsg_sent p hstart
          simp only [hvalue, if_true, List.mem_cons, forall_eq_or_imp]
          rw [acknowledged_msg_iff, and_iff_right hvalue, ih]
          generalize (startMsg p.bus m s).dev = s₁ at hsent
          by_cases hread : m.flags &&& I2C_M_RD ≠ 0
          · have hnone := not_hasNak_of_noWrite (moveMsg_read_noWrite p hread s₁)
            rw [(moveMsg_read p hread s₁).1, hsent, and_iff_right hnone, if_pos hread]
          · rcases moveMsg_write p hread s₁ with ⟨hsent', hnak, -⟩
            rw [if_neg hread, hnak, not_not, hsent', hsent]
            apply and_congr_right
            intro hall
            rw [sentBy_of_allAcked hall]

/-- A transfer that is answered throughout has nothing to fall silent for. -/
theorem staysQuiet_of_answersAll {ack : Nat → Bool} {n : Nat} {msgs : List I2cMsg}
    (h : AnswersAll ack n msgs) : StaysQuiet ack False n msgs := by
  induction msgs generalizing n with
  | nil => trivial
  | cons m msgs ih =>
      rw [AnswersAll] at h
      rw [StaysQuiet]
      cases hstart : startsAt ack m n with
      | none => trivial
      | some n' =>
          simp only [hstart] at h
          by_cases hread : m.flags &&& I2C_M_RD ≠ 0
          · simp only [if_pos hread] at h ⊢
            exact ih h
          · simp only [if_neg hread] at h ⊢
            rcases h with ⟨hall, hrest⟩
            have hnone : (False ∨ ¬ AllAcked ack n' m.len.toNat) = False := by simp [hall]
            rw [hnone, sentBy_of_allAcked hall]
            exact ⟨fun hfalse => hfalse.elim, ih hrest⟩

/-- No data byte follows one that was not acknowledged, over a whole transfer. -/
theorem quiet_i2cTransfer_iff (msgs : List I2cMsg) (s : Count) :
    QuietAfterNak (i2cTransfer p.bus msgs s).events ↔ StaysQuiet p.ack False s.sent msgs := by
  rw [← quiet_transferMsgs_iff p False 0 msgs s]
  exact (and_iff_left fun hfalse => hfalse.elim).symm

/-! ## The API functions -/

section Api

variable (chip : UInt8) (addr : UInt32) (beyond : Nat → UInt8) (alen : Int)
  (buffer : Nat → UInt8) (len : Int)

/-- What a slave must answer during `i2c_write`. -/
theorem answersAll_writeMsgs_iff (ack : Nat → Bool) (n : Nat) :
    AnswersAll ack n (writeMsgs chip addr beyond alen buffer len) ↔
      ∃ n', answered ack 5 n = some n' ∧
        AllAcked ack n' ((toLen alen).toNat + (toLen len).toNat) := by
  have hstart : (0 : UInt16) &&& I2C_M_NOSTART = 0 := by decide
  have hwrite : (0 : UInt16) &&& I2C_M_RD = 0 := by decide
  have hnostart : I2C_M_NOSTART &&& I2C_M_NOSTART ≠ 0 := by decide
  have hwrite' : I2C_M_NOSTART &&& I2C_M_RD = 0 := by decide
  simp only [writeMsgs, AnswersAll, startsAt, hstart, hwrite, hnostart, hwrite', ne_eq,
    not_true_eq_false, if_true, if_false, and_true, allAcked_add]
  cases answered ack 5 n <;> simp

/-- What a slave must answer during `i2c_read`. -/
theorem answersAll_readMsgs_iff (ack : Nat → Bool) (n : Nat) :
    AnswersAll ack n (readMsgs chip addr beyond alen buffer len) ↔
      ∃ n', answered ack 5 n = some n' ∧ AllAcked ack n' (toLen alen).toNat ∧
        (answered ack 5 (n' + (toLen alen).toNat)).isSome := by
  have hstart : (0 : UInt16) &&& I2C_M_NOSTART = 0 := by decide
  have hwrite : (0 : UInt16) &&& I2C_M_RD = 0 := by decide
  have hstart' : I2C_M_RD &&& I2C_M_NOSTART = 0 := by decide
  have hread : I2C_M_RD &&& I2C_M_RD ≠ 0 := by decide
  simp only [readMsgs, AnswersAll, startsAt, hstart, hwrite, hstart', hread, ne_eq,
    not_true_eq_false, not_false_eq_true, if_true, if_false]
  cases answered ack 5 n with
  | none => simp
  | some n' =>
      simp only [Option.some.injEq, exists_eq_left']
      apply and_congr_right
      intro _
      cases answered ack 5 (n' + (toLen alen).toNat) <;> simp

/-- What an API call must have done when it returns zero, and the silence it must
keep behind an unacknowledged byte. -/
def ReportsAndStops (r : ApiRun Count) : Prop :=
  (r.value = 0 → AllAcknowledged r.transfer) ∧ QuietAfterNak r.transfer.events

/-- A zero that is reported for a transfer is right exactly when the slave answers all
of it. -/
theorem reportsAndStops_iff (msgs : List I2cMsg) (s : Count) :
    ReportsAndStops { value := 0, transfer := i2cTransfer p.bus msgs s } ↔
      AnswersAll p.ack s.sent msgs := by
  unfold ReportsAndStops
  rw [quiet_i2cTransfer_iff, imp_iff_right rfl]
  constructor
  · rintro ⟨hacked, -⟩
    exact (allAcknowledged_transferMsgs_iff p 0 msgs s).mp hacked
  · intro h
    exact ⟨(allAcknowledged_transferMsgs_iff p 0 msgs s).mpr h, staysQuiet_of_answersAll h⟩

end Api

/-- For every pattern of answers: a transfer of any messages puts no data byte
behind an unacknowledged one if and only if no message with data bytes is written
behind one with an unacknowledged byte; `i2c_write` returns zero for acknowledged
bytes only, and keeps that silence, if and only if its address is answered within
six attempts and all its bytes are acknowledged; `i2c_read` if and only if both its
addresses are answered so and the bytes between them are acknowledged. -/
theorem i2c_answers_iff (p : Pattern) (s : Count) :
    (∀ msgs, QuietAfterNak (i2cTransfer p.bus msgs s).events ↔
        StaysQuiet p.ack False s.sent msgs) ∧
      (∀ chip addr beyond alen buffer len,
        ReportsAndStops (i2cWrite p.bus chip addr beyond alen buffer len s) ↔
          ∃ n, answered p.ack 5 s.sent = some n ∧
            AllAcked p.ack n ((toLen alen).toNat + (toLen len).toNat)) ∧
      ∀ chip addr beyond alen buffer len,
        ReportsAndStops (i2cRead p.bus chip addr beyond alen buffer len s) ↔
          ∃ n, answered p.ack 5 s.sent = some n ∧ AllAcked p.ack n (toLen alen).toNat ∧
            (answered p.ack 5 (n + (toLen alen).toNat)).isSome := by
  refine ⟨fun msgs => quiet_i2cTransfer_iff p msgs s, ?_, ?_⟩
  · intro chip addr beyond alen buffer len
    rw [← answersAll_writeMsgs_iff chip addr beyond alen buffer len]
    exact reportsAndStops_iff p _ s
  · intro chip addr beyond alen buffer len
    rw [← answersAll_readMsgs_iff chip addr beyond alen buffer len]
    exact reportsAndStops_iff p _ s

/-- A slave that acknowledges its address and nothing else. -/
def addressOnly : Pattern where
  ack n := n == 0
  byte _ := 0
  busy _ := 0

/-- Writing one byte to it: the byte follows the unacknowledged data address, and
the result is zero. -/
theorem i2cWrite_address_only :
    (i2cWrite addressOnly.bus 0xA0 0x10 (fun _ => 0) 1 (fun _ => 0x55) 1 ⟨0, 0, 0⟩).value = 0 ∧
      (i2cWrite addressOnly.bus 0xA0 0x10 (fun _ => 0) 1 (fun _ => 0x55) 1
          ⟨0, 0, 0⟩).transfer.events =
        [.start 0xA0 true, .write 0x10 false, .stop 0, .write 0x55 false, .stop 0, .stop 0] ∧
      ¬ ReportsAndStops
        (i2cWrite addressOnly.bus 0xA0 0x10 (fun _ => 0) 1 (fun _ => 0x55) 1 ⟨0, 0, 0⟩) := by
  have hevents : (i2cWrite addressOnly.bus 0xA0 0x10 (fun _ => 0) 1 (fun _ => 0x55) 1
      ⟨0, 0, 0⟩).transfer.events =
        [.start 0xA0 true, .write 0x10 false, .stop 0, .write 0x55 false, .stop 0, .stop 0] := by
    decide
  refine ⟨rfl, hevents, ?_⟩
  rintro ⟨-, hquiet⟩
  rw [hevents] at hquiet
  unfold QuietAfterNak at hquiet
  revert hquiet
  decide

end I2c
end Ls2kMorse
