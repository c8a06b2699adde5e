import Ls2kMorse.Lib.Trace
import Ls2kMorse.Recorder.Record

/-!
# The recording thread and the FIFO of the codec

`vs1003_start_record_thread` reads the fill level once and then takes batches of
256 words as long as that level, less what it has taken since, allows; the codec
appends words at any time.  A batch goes to the callback as 512 bytes.

Main results:

- Theorem `Invariant.step`: the level in `t` never exceeds the fill of the FIFO.
- Theorem `recordThread_triple`: no read finds the FIFO empty.
- Theorem `recordThread_exact`: the buffers are the words in order, 256 to a
  buffer.
-/

namespace Ls2kMorse
namespace Recorder

open Lib.Trace

/-! ## The thread as the source computes it -/

/-- Where the thread stands: at the read of `SCI_HDAT1`, at the test of the inner
`while` loop with the level `t`, or at the test of the `for` loop. -/
inductive ThreadPc where
  | poll
  | test (t : Nat)
  | pop (t i : Nat)
deriving Repr, DecidableEq

/-- The thread and the FIFO: the array `db`, the buffers that the callback got, and
all words that were read from `SCI_HDAT0` and that the codec appended. -/
structure Session where
  pc : ThreadPc
  fifo : List UInt16
  db : List UInt8
  buffers : List (List UInt8)
  popped : List UInt16
  appended : List UInt16
deriving Repr, DecidableEq

/-- A step of the thread, or words that the codec appends. -/
inductive Action where
  | thread
  | append (words : List UInt16)
deriving Repr, DecidableEq

/-- The value that `read_register` makes of the two bytes of a word. -/
def readRegister (w : UInt16) : UInt16 :=
  let response1 := (w >>> 8).toUInt8
  let response2 := (w &&& 0xFF).toUInt8
  response1.toUInt16 <<< 8 ||| response2.toUInt16 &&& 0xFF

namespace Session

/-- The start of the thread; the array is not initialised. -/
def init (fifo : List UInt16) (db : Vector UInt8 512) : Session where
  pc := .poll
  fifo := fifo
  db := db.toList
  buffers := []
  popped := []
  appended := []

/-- One action. -/
def step (s : Session) : Action → Session
  | .append words => { s with fifo := s.fifo ++ words, appended := s.appended ++ words }
  | .thread =>
      match s.pc with
      | .poll => { s with pc := .test (readRegister (UInt16.ofNat s.fifo.length)).toNat }
      | .test t =>
          if t ≥ VS1003_ADPCM_BATCH_SIZE then
            if t ≥ 896 then { s with pc := .poll } else { s with pc := .pop t 0 }
          else { s with pc := .poll }
      | .pop t i =>
          if i < VS1003_ADPCM_BATCH_SIZE * 2 then
            let w := readRegister (s.fifo.headD 0)
            { s with
              pc := .pop t (i + 2)
              fifo := s.fifo.tail
              db := (s.db.set i (w >>> 8).toUInt8).set (i + 1) (w &&& 0xFF).toUInt8
              popped := s.popped ++ [s.fifo.headD 0] }
          else
            { s with
              pc := .test (t - VS1003_ADPCM_BATCH_SIZE)
              buffers := s.buffers ++ [s.db] }

/-- The next step of the thread reads `SCI_HDAT0`. -/
def ReadsWord (s : Session) : Prop :=
  ∃ t i, s.pc = .pop t i ∧ i < VS1003_ADPCM_BATCH_SIZE * 2

/-- A read of `SCI_HDAT0` finds a word. -/
def FindsWord (s : Session) (a : Action) : Prop :=
  a = .thread → s.ReadsWord → s.fifo ≠ []

/-- The thread is not inside a batch. -/
def BetweenBatches (s : Session) : Prop :=
  ∀ t i, s.pc ≠ .pop t i

end Session

/-! ## Words and bytes -/

/-- Sending a word as two bytes loses nothing. -/
theorem readRegister_eq (w : UInt16) : readRegister w = w := by
  have hw := w.toNat_lt
  have hhigh : (w >>> 8).toUInt8.toNat = w.toNat / 256 := by
    simp [Nat.shiftRight_eq_div_pow]
    omega
  have hmask : w.toNat % 256 &&& 255 = w.toNat % 256 :=
    (Nat.and_two_pow_sub_one_eq_mod (w.toNat % 256) 8).trans (Nat.mod_mod _ _)
  have hlow : (w &&& 0xFF).toUInt8.toNat = w.toNat % 256 := by
    simpa using hmask
  have hjoin : 2 ^ 8 * (w.toNat / 256) ||| w.toNat % 256 = w.toNat := by
    rw [← Nat.two_pow_add_eq_or_of_lt (by omega)]
    omega
  apply UInt16.toNat_inj.mp
  unfold readRegister
  simp only [UInt16.toNat_or, UInt16.toNat_and, UInt16.toNat_shiftLeft, UInt8.toNat_toUInt16,
    hhigh, hlow]
  have hshift : (w.toNat / 256) <<< 8 % 65536 = 2 ^ 8 * (w.toNat / 256) := by
    rw [Nat.shiftLeft_eq]
    omega
  simpa [hmask, hshift] using hjoin

/-- The bytes that are stored for a word are those behind the ones before. -/
theorem take_set_set {db : List UInt8} {i : Nat} (hi : i + 2 ≤ db.length) (high low : UInt8) :
    ((db.set i high).set (i + 1) low).take (i + 2) = db.take i ++ [high, low] := by
  rw [List.take_succ_eq_append_getElem (by simp; omega),
    List.take_succ_eq_append_getElem (by simp; omega), List.take_set_of_le (Nat.le_succ i),
    List.take_set_of_le (Nat.le_refl i)]
  simp

/-! ## One step -/

namespace Session

/-- What one step of the thread does: read the level, leave the inner loop, begin a
batch, take a word, or complete the batch. -/
theorem step_thread_cases (s : Session) :
    (s.pc = .poll ∧ s.step .thread =
        { s with pc := .test (UInt16.ofNat s.fifo.length).toNat }) ∨
    (∃ t, s.pc = .test t ∧ (t < 256 ∨ 896 ≤ t) ∧ s.step .thread = { s with pc := .poll }) ∨
    (∃ t, s.pc = .test t ∧ 256 ≤ t ∧ s.step .thread = { s with pc := .pop t 0 }) ∨
    (∃ t i, s.pc = .pop t i ∧ i < 512 ∧ s.step .thread =
        { s with
          pc := .pop t (i + 2)
          fifo := s.fifo.tail
          db := (s.db.set i (s.fifo.headD 0 >>> 8).toUInt8).set (i + 1)
            (s.fifo.headD 0 &&& 0xFF).toUInt8
          popped := s.popped ++ [s.fifo.headD 0] }) ∨
    (∃ t i, s.pc = .pop t i ∧ 512 ≤ i ∧ s.step .thread =
        { s with pc := .test (t - 256), buffers := s.buffers ++ [s.db] }) := by
  unfold step
  simp only [readRegister_eq]
  cases hpc : s.pc with
  | poll => exact Or.inl ⟨rfl, rfl⟩
  | test t =>
      right
      by_cases hlow : t ≥ 256
      · by_cases hhigh : t ≥ 896
        · exact Or.inl ⟨t, rfl, Or.inr hhigh, (if_pos hlow).trans (if_pos hhigh)⟩
        · exact Or.inr (Or.inl ⟨t, rfl, hlow, (if_pos hlow).trans (if_neg hhigh)⟩)
      · exact Or.inl ⟨t, rfl, Or.inl (Nat.lt_of_not_ge hlow), if_neg hlow⟩
  | pop t i =>
      right
      right
      right
      by_cases hi : i < 512
      · exact Or.inl ⟨t, i, rfl, hi, if_pos hi⟩
      · exact Or.inr ⟨t, i, rfl, Nat.le_of_not_lt hi, if_neg hi⟩

/-- The words taken since the last complete batch agree with the place of the
thread, and the level `t` with what the FIFO still holds. -/
def Stands (s : Session) (pending : List UInt16) : Prop :=
  match s.pc with
  | .poll => pending = []
  | .test t => pending = [] ∧ t ≤ s.fifo.length
  | .pop t i =>
      i = 2 * pending.length ∧ i ≤ 512 ∧ 256 ≤ t ∧ t ≤ s.fifo.length + pending.length ∧
        s.db.take i = pending.flatMap wordBytes

/-- Appended words keep the place of the thread. -/
theorem Stands.append {s : Session} {pending : List UInt16} (h : s.Stands pending)
    (words : List UInt16) : (s.step (.append words)).Stands pending := by
  simp only [Stands, Session.step] at h ⊢
  cases hpc : s.pc with
  | poll =>
      rw [hpc] at h
      exact h
  | test t =>
      simp only [hpc, List.length_append] at h ⊢
      exact ⟨h.1, by omega⟩
  | pop t i =>
      simp only [hpc, List.length_append] at h ⊢
      rcases h with ⟨hi, hle, ht, hfill, htake⟩
      exact ⟨hi, hle, ht, by omega, htake⟩

/-- Taken words and the FIFO are the words of the start and those appended; the
buffers are whole batches of taken words, and what is left of them is in `db`. -/
structure Invariant (words : List UInt16) (s : Session) : Prop where
  order : s.popped ++ s.fifo = words ++ s.appended
  length_db : s.db.length = 512
  batches : ∃ (batches : List (List UInt16)) (pending : List UInt16),
    s.popped = batches.flatten ++ pending ∧
    (∀ batch ∈ batches, batch.length = 256) ∧
    s.buffers = batches.map (fun batch => batch.flatMap wordBytes) ∧ s.Stands pending

/-- The session starts in order. -/
theorem Invariant.init (words : List UInt16) (db : Vector UInt8 512) :
    Invariant words (Session.init words db) where
  order := by simp [Session.init]
  length_db := by simp [Session.init]
  batches := ⟨[], [], rfl, fun _ h => absurd h List.not_mem_nil, rfl, rfl⟩

/-- A word is only read when the FIFO holds one. -/
theorem Invariant.findsWord {words : List UInt16} {s : Session} (h : Invariant words s)
    (a : Action) : s.FindsWord a := by
  rintro - ⟨t, i, hpc, hi⟩ hempty
  rcases h.batches with ⟨batches, pending, -, -, -, hstands⟩
  simp only [Stands, hpc, hempty, List.length_nil] at hstands
  rcases hstands with ⟨hpending, -, ht, hfill, -⟩
  simp only [VS1003_ADPCM_BATCH_SIZE] at hi
  omega

/-- Every step keeps the order. -/
theorem Invariant.step {words : List UInt16} {s : Session} (h : Invariant words s)
    (a : Action) : Invariant words (s.step a) := by
  have hfinds := h.findsWord a
  rcases h with ⟨horder, hdb, batches, pending, hpopped, hbatches, hbuffers, hstands⟩
  cases a with
  | append more =>
      refine ⟨?_, hdb, batches, pending, hpopped, hbatches, hbuffers, hstands.append more⟩
      simp only [Session.step]
      rw [← List.append_assoc, horder, List.append_assoc]
  | thread =>
      rcases step_thread_cases s with ⟨hpc, hstep⟩ | ⟨t, hpc, -, hstep⟩ | ⟨t, hpc, ht, hstep⟩ |
        ⟨t, i, hpc, hi, hstep⟩ | ⟨t, i, hpc, hi, hstep⟩ <;>
        rw [hstep] <;> simp only [Stands, hpc] at hstands
      · -- the register holds the fill, or less when the fill needs more than 16 bits
        refine ⟨horder, hdb, batches, pending, hpopped, hbatches, hbuffers, hstands, ?_⟩
        rw [UInt16.toNat_ofNat']
        exact Nat.mod_le _ _
      · exact ⟨horder, hdb, batches, pending, hpopped, hbatches, hbuffers, hstands.1⟩
      · rcases hstands with ⟨rfl, hfill⟩
        exact ⟨horder, hdb, batches, [], hpopped, hbatches, hbuffers, rfl, Nat.zero_le _, ht,
          hfill, rfl⟩
      · rcases hstands with ⟨hpending, hle, ht, hfill, htake⟩
        -- the word that is taken
        obtain ⟨w, fifo, hfifo⟩ : ∃ w fifo, s.fifo = w :: fifo :=
          List.exists_cons_of_ne_nil (hfinds rfl ⟨t, i, hpc, hi⟩)
        simp only [hfifo, List.headD_cons, List.tail_cons, List.length_cons] at hfill ⊢
        rw [hfifo] at horder
        refine ⟨?_, ?_, batches, pending ++ [w], ?_, hbatches, hbuffers, ?_⟩
        · rw [← horder]
          simp
        · simpa using hdb
        · rw [hpopped, List.append_assoc]
        · simp only [Stands, List.length_append, List.length_singleton, List.flatMap_append,
            List.flatMap_singleton]
          refine ⟨by omega, by omega, ht, by omega, ?_⟩
          rw [take_set_set (by omega), htake]
          rfl
      · rcases hstands with ⟨hpending, hle, ht, hfill, htake⟩
        have hfull : pending.length = 256 := by omega
        have hbytes : s.db = pending.flatMap wordBytes := by
          rw [← htake, List.take_of_length_le (by omega)]
        refine ⟨horder, hdb, batches ++ [pending], [], ?_, ?_, ?_, rfl, ?_⟩
        · simp [hpopped]
        · intro batch hbatch
          rcases List.mem_append.mp hbatch with hbatch | hbatch
          · exact hbatches batch hbatch
          · rw [List.mem_singleton.mp hbatch, hfull]
        · simp [hbuffers, hbytes]
        · simp only
          omega

end Session

/-! ## Whole runs -/

/-- The state after a sequence of steps of the thread and of the codec, started on a
FIFO that holds `words`. -/
def recordThread (words : List UInt16) (db : Vector UInt8 512) (actions : List Action) :
    Session :=
  actions.foldl Session.step (Session.init words db)

/-- The words that an action appends. -/
def Action.words : Action → List UInt16
  | .thread => []
  | .append words => words

/-- The thread leaves the record of appended words alone. -/
theorem Session.appended_step (s : Session) (a : Action) :
    (s.step a).appended = s.appended ++ a.words := by
  cases a with
  | append words => rfl
  | thread =>
      rcases s.step_thread_cases with ⟨-, hstep⟩ | ⟨t, -, -, hstep⟩ | ⟨t, -, -, hstep⟩ |
        ⟨t, i, -, -, hstep⟩ | ⟨t, i, -, -, hstep⟩ <;>
        rw [hstep, Action.words, List.append_nil]

/-- The words appended are those of the actions. -/
theorem appended_recordThread (words : List UInt16) (db : Vector UInt8 512)
    (actions : List Action) :
    (recordThread words db actions).appended = actions.flatMap Action.words := by
  have happended : ∀ s : Session, (actions.foldl Session.step s).appended =
      s.appended ++ actions.flatMap Action.words := by
    induction actions with
    | nil => simp
    | cons a actions ih =>
        intro s
        rw [List.foldl_cons, ih, s.appended_step, List.flatMap_cons, List.append_assoc]
  exact happended (Session.init words db)

/-- Every read of a word finds one, and the invariant is kept. -/
theorem recordThread_triple (words : List UInt16) (actions : List Action) :
    Triple Session.step Session.FindsWord (Session.Invariant words) actions
      (Session.Invariant words) :=
  Triple.of_forall fun a _ => Triple.single (fun _ hs => hs.findsWord a) fun _ hs => hs.step a

/-- In every run, however steps of the thread and appended words follow each other:
no read of `SCI_HDAT0` finds the FIFO empty; the words that were read and those
still in the FIFO are the words of the start and the appended ones, in order; and
between batches the buffers of the callback are these words cut into batches of
256, each word as its high and its low byte. -/
theorem recordThread_exact (words : List UInt16) (db : Vector UInt8 512)
    (actions : List Action) :
    Along Session.step Session.FindsWord (Session.init words db) actions ∧
      (recordThread words db actions).popped ++ (recordThread words db actions).fifo =
        words ++ actions.flatMap Action.words ∧
      ((recordThread words db actions).BetweenBatches →
        ∃ batches : List (List UInt16),
          (recordThread words db actions).popped = batches.flatten ∧
            (∀ batch ∈ batches, batch.length = 256) ∧
            (recordThread words db actions).buffers =
              batches.map (fun batch => batch.flatMap wordBytes) ∧
            (recordThread words db actions).buffers.flatten =
              (recordThread words db actions).popped.flatMap wordBytes) := by
  rcases recordThread_triple words actions _ (Session.Invariant.init words db) with
    ⟨hsafe, horder, -, batches, pending, hpopped, hbatches, hbuffers, hstands⟩
  refine ⟨hsafe, ?_, ?_⟩
  · rw [← appended_recordThread words db actions]
    exact horder
  · intro hbetween
    have hnil : pending = [] := by
      unfold Session.Stands at hstands
      cases hpc : (recordThread words db actions).pc with
      | poll =>
          unfold recordThread at hpc
          rw [hpc] at hstands
          exact hstands
      | test t =>
          unfold recordThread at hpc
          rw [hpc] at hstands
          exact hstands.1
      | pop t i => exact absurd hpc (hbetween t i)
    rw [hnil, List.append_nil] at hpopped
    refine ⟨batches, hpopped, hbatches, hbuffers, ?_⟩
    unfold recordThread
    rw [hbuffers, hpopped, List.flatMap_def, List.map_flatten, List.flatten_flatten, List.map_map]
    rfl

end Recorder
end Ls2kMorse
