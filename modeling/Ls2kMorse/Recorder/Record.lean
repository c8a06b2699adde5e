import Ls2kMorse.Recorder.WavHeader
import Mathlib.Logic.Function.Iterate

/-!
# Recording to a file

`vs1003_record` writes the header for `2 * len` blocks and then polls the fill
level `SCI_HDAT1` while `len` is not zero.  A fill below 896 is drained in
batches of 256 words, each of which decrements `len`; the inner loop does not
look at `len`.  A poll that finds more batches than are left therefore carries
`len` past zero.

The module embeds the two loops as one step function and follows every run.

Main results:

- Theorem `Accounting.step`: the batches written, those still pending in the
  current poll and `len` always add up.
- Theorem `exists_test_after`: the loop returns to its test after every poll.
- Theorem `exactRecording_iff`: a recording has the declared length if and only
  if no poll finds more batches than are left.
-/

namespace Ls2kMorse
namespace Recorder

/-! ## The loops as the source computes them -/

/-- What the codec answers: `hdat1 i` to the `i`-th poll of the fill level,
`hdat0 i` to the `i`-th read of a word. -/
structure Codec where
  hdat1 : Nat → UInt16
  hdat0 : Nat → UInt16

/-- Where `vs1003_record` stands: at `while (len)`, at the inner
`while (t >= 256)`, or behind both loops. -/
inductive Pc where
  | test
  | drain (t : Nat)
  | stopped
deriving Repr, DecidableEq

/-- Local variables, the file written so far and the number of register reads. -/
structure Recording where
  pc : Pc
  len : Int
  file : List UInt8
  polls : Nat
  popped : Nat
deriving Repr, DecidableEq

/-- The bytes of one word in `db`, high byte first. -/
def wordBytes (w : UInt16) : List UInt8 :=
  [(w >>> 8).toUInt8, (w &&& 0xFF).toUInt8]

/-- The contents of `db` after 256 words have been read. -/
def readBatch (codec : Codec) (popped : Nat) : List UInt8 :=
  (List.range VS1003_ADPCM_BATCH_SIZE).flatMap fun i => wordBytes (codec.hdat0 (popped + i))

namespace Recording

/-- State after the header has been written to the empty file. -/
def init (header : Vector UInt8 60) (len : Nat) : Recording where
  pc := .test
  len := len
  file := (wrtieHeader header (UInt32.ofNat (2 * len)) 8000).toList
  polls := 0
  popped := 0

/-- One evaluation of a loop test together with the statements it leads to. -/
def step (codec : Codec) (s : Recording) : Recording :=
  match s.pc with
  | .test =>
      if s.len ≠ 0 then
        { s with pc := .drain (codec.hdat1 s.polls).toNat, polls := s.polls + 1 }
      else { s with pc := .stopped }
  | .drain t =>
      if t ≥ VS1003_ADPCM_BATCH_SIZE then
        if t ≥ 896 then { s with pc := .test }
        else
          { s with
            pc := .drain (t - VS1003_ADPCM_BATCH_SIZE)
            len := s.len - 1
            file := s.file ++ readBatch codec s.popped
            popped := s.popped + VS1003_ADPCM_BATCH_SIZE }
      else { s with pc := .test }
  | .stopped => s

/-- What one step does: poll, stop, write a batch, leave the inner loop, or
nothing once stopped. -/
theorem step_cases (codec : Codec) (s : Recording) :
    (s.pc = .test ∧ s.len ≠ 0 ∧ s.step codec =
        { s with pc := .drain (codec.hdat1 s.polls).toNat, polls := s.polls + 1 }) ∨
    (s.pc = .test ∧ s.len = 0 ∧ s.step codec = { s with pc := .stopped }) ∨
    (∃ t, s.pc = .drain t ∧ 256 ≤ t ∧ t < 896 ∧ s.step codec =
        { s with
          pc := .drain (t - 256)
          len := s.len - 1
          file := s.file ++ readBatch codec s.popped
          popped := s.popped + 256 }) ∨
    (∃ t, s.pc = .drain t ∧ (t < 256 ∨ 896 ≤ t) ∧ s.step codec = { s with pc := .test }) ∨
    (s.pc = .stopped ∧ s.step codec = s) := by
  unfold step
  cases hpc : s.pc with
  | test =>
      by_cases hne : s.len ≠ 0
      · exact Or.inl ⟨rfl, hne, if_pos hne⟩
      · exact Or.inr (Or.inl ⟨rfl, not_not.mp hne, if_neg hne⟩)
  | drain t =>
      by_cases hlow : t ≥ 256
      · by_cases hhigh : t ≥ 896
        · refine Or.inr (Or.inr (Or.inr (Or.inl ⟨t, rfl, Or.inr hhigh, ?_⟩)))
          exact (if_pos hlow).trans (if_pos hhigh)
        · refine Or.inr (Or.inr (Or.inl ⟨t, rfl, hlow, Nat.lt_of_not_ge hhigh, ?_⟩))
          exact (if_pos hlow).trans (if_neg hhigh)
      · refine Or.inr (Or.inr (Or.inr (Or.inl ⟨t, rfl, Or.inl (Nat.lt_of_not_ge hlow), ?_⟩)))
        exact if_neg hlow
  | stopped => exact Or.inr (Or.inr (Or.inr (Or.inr ⟨rfl, rfl⟩)))

end Recording

/-- The state after `n` steps of `vs1003_record` for a requested length. -/
def vs1003Record (codec : Codec) (header : Vector UInt8 60) (len n : Nat) : Recording :=
  (Recording.step codec)^[n] (Recording.init header len)

/-- A longer run continues a shorter one. -/
theorem vs1003Record_add (codec : Codec) (header : Vector UInt8 60) (len n k : Nat) :
    vs1003Record codec header len (n + k) =
      (Recording.step codec)^[k] (vs1003Record codec header len n) := by
  unfold vs1003Record
  rw [Nat.add_comm, Function.iterate_add_apply]

/-! ## What a recording should be -/

/-- The bytes of the first words. -/
def wordsBytes (codec : Codec) (count : Nat) : List UInt8 :=
  (List.range count).flatMap fun i => wordBytes (codec.hdat0 i)

/-- In every state of the run `len` is not negative; a stopped run has written
the header and `len` batches of 512 bytes, which is the length that the header
declares twice; and once `len` batches are written the run stops without another
poll or write. -/
structure ExactRecording (codec : Codec) (header : Vector UInt8 60) (len : Nat) : Prop where
  len_nonneg : ∀ n, 0 ≤ (vs1003Record codec header len n).len
  stopped : ∀ n, (vs1003Record codec header len n).pc = .stopped →
    ∃ written body, written = wrtieHeader header (UInt32.ofNat (2 * len)) 8000 ∧
      (vs1003Record codec header len n).file = written.toList ++ body ∧
      body = wordsBytes codec (256 * len) ∧ body.length = 512 * len ∧
      (vs1003Record codec header len n).file.length = le32 written 4 + 8 ∧
      (vs1003Record codec header len n).file.length = le32 written 56 + 60
  stops : ∀ n, (vs1003Record codec header len n).popped = 256 * len →
    ∃ k, (vs1003Record codec header len (n + k)).pc = .stopped ∧
      (vs1003Record codec header len (n + k)).polls = (vs1003Record codec header len n).polls ∧
      (vs1003Record codec header len (n + k)).file = (vs1003Record codec header len n).file

/-- The number of batches that one poll drains. -/
def batchesOf (t : Nat) : Nat :=
  if t < 896 then t / 256 else 0

/-- The number of batches that the first `i` polls drain. -/
def takenBy (codec : Codec) : Nat → Nat
  | 0 => 0
  | i + 1 => takenBy codec i + batchesOf (codec.hdat1 i).toNat

/-- No poll finds more batches than are left. -/
def NoOvershoot (codec : Codec) (len : Nat) : Prop :=
  ∀ i, takenBy codec i < len → takenBy codec (i + 1) ≤ len

/-! ## Accounting -/

/-- Outside the two bounds no batch is read. -/
theorem batchesOf_of_out {t : Nat} (h : t < 256 ∨ 896 ≤ t) : batchesOf t = 0 := by
  unfold batchesOf
  by_cases hlt : t < 896
  · rw [if_pos hlt]
    omega
  · exact if_neg hlt

/-- Between the bounds one batch is read and the rest is as before. -/
theorem batchesOf_succ {t : Nat} (hlow : 256 ≤ t) (hhigh : t < 896) :
    batchesOf t = batchesOf (t - 256) + 1 := by
  unfold batchesOf
  rw [if_pos hhigh, if_pos (by omega)]
  omega

/-- The words taken grow with the polls. -/
theorem takenBy_mono (codec : Codec) {i j : Nat} (h : i ≤ j) :
    takenBy codec i ≤ takenBy codec j := by
  induction h with
  | refl => exact Nat.le_refl _
  | step _ ih => exact Nat.le_trans ih (Nat.le_add_right _ _)

/-- A word has two bytes. -/
theorem length_wordsBytes (codec : Codec) (count : Nat) :
    (wordsBytes codec count).length = 2 * count := by
  unfold wordsBytes
  induction count with
  | zero => rfl
  | succ count ih =>
      rw [List.range_succ, List.flatMap_append, List.length_append, ih]
      rfl

/-- One batch more is 256 words more. -/
theorem wordsBytes_add_batch (codec : Codec) (count : Nat) :
    wordsBytes codec count ++ readBatch codec count = wordsBytes codec (count + 256) := by
  unfold wordsBytes readBatch VS1003_ADPCM_BATCH_SIZE
  rw [List.range_add, List.flatMap_append, List.flatMap_map]

/-- The batches of the current poll that are still to be written. -/
def Pc.pending : Pc → Nat
  | .test => 0
  | .drain t => batchesOf t
  | .stopped => 0

/-- `len` and the written words account for the batches of all polls, the file
holds the header and the written words, and the loops end at `len` zero. -/
structure Accounting (codec : Codec) (header : Vector UInt8 60) (len : Nat)
    (s : Recording) : Prop where
  len_eq : s.len + takenBy codec s.polls = len + s.pc.pending
  popped_eq : s.popped + 256 * s.pc.pending = 256 * takenBy codec s.polls
  file_eq : s.file = (wrtieHeader header (UInt32.ofNat (2 * len)) 8000).toList ++
    wordsBytes codec s.popped
  len_zero : s.pc = .stopped → s.len = 0

section Run

variable {codec : Codec} {header : Vector UInt8 60} {len : Nat}

/-- The counts are right at the start. -/
theorem Accounting.init : Accounting codec header len (Recording.init header len) where
  len_eq := rfl
  popped_eq := rfl
  file_eq := by
    simp [Recording.init, wordsBytes]
  len_zero := fun h => absurd h Pc.noConfusion

/-- Every step keeps the account. -/
theorem Accounting.step {s : Recording} (h : Accounting codec header len s) :
    Accounting codec header len (s.step codec) := by
  rcases h with ⟨hlen, hpopped, hfile, hzero⟩
  rcases s.step_cases codec with
    ⟨hpc, hne, hstep⟩ | ⟨hpc, heq, hstep⟩ | ⟨t, hpc, hlow, hhigh, hstep⟩ |
      ⟨t, hpc, hout, hstep⟩ | ⟨hpc, hstep⟩
  · -- a poll: the batches it will drain become pending
    rw [hpc] at hlen hpopped
    simp only [Pc.pending] at hlen hpopped
    rw [hstep]
    refine ⟨?_, ?_, hfile, fun h => absurd h Pc.noConfusion⟩
    · simp only [takenBy, Pc.pending]
      omega
    · simp only [takenBy, Pc.pending]
      omega
  · rw [hpc] at hlen hpopped
    rw [hstep]
    exact ⟨hlen, hpopped, hfile, fun _ => heq⟩
  · -- a batch: one pending batch is written
    have hbatch := batchesOf_succ hlow hhigh
    rw [hpc] at hlen hpopped
    simp only [Pc.pending] at hlen hpopped
    rw [hstep]
    refine ⟨?_, ?_, ?_, fun h => absurd h Pc.noConfusion⟩
    · simp only [Pc.pending]
      omega
    · simp only [Pc.pending]
      omega
    · simp only
      rw [hfile, List.append_assoc, wordsBytes_add_batch]
  · rw [hpc] at hlen hpopped
    simp only [Pc.pending, batchesOf_of_out hout] at hlen hpopped
    rw [hstep]
    exact ⟨hlen, hpopped, hfile, fun h => absurd h Pc.noConfusion⟩
  · rw [hstep]
    exact ⟨hlen, hpopped, hfile, hzero⟩

variable (codec header len) in
/-- The account is kept in every state of a run. -/
theorem accounting_run (n : Nat) :
    Accounting codec header len (vs1003Record codec header len n) :=
  Function.Iterate.rec (Accounting codec header len) Accounting.init
    (fun _ h => Accounting.step h) n

/-- As long as no poll overshoots, a step does not take more than `len` batches. -/
theorem takenBy_step_le (hover : NoOvershoot codec len) {s : Recording}
    (h : Accounting codec header len s) (hle : takenBy codec s.polls ≤ len) :
    takenBy codec (s.step codec).polls ≤ len := by
  rcases s.step_cases codec with
    ⟨hpc, hne, hstep⟩ | ⟨hpc, heq, hstep⟩ | ⟨t, hpc, hlow, hhigh, hstep⟩ |
      ⟨t, hpc, hout, hstep⟩ | ⟨hpc, hstep⟩
  · have hlen := h.len_eq
    rw [hpc] at hlen
    simp only [Pc.pending] at hlen
    rw [hstep]
    apply hover s.polls
    omega
  · rwa [hstep]
  · rwa [hstep]
  · rwa [hstep]
  · rwa [hstep]

variable (header) in

/-- Without an overshoot no more than `len` words are taken. -/
theorem takenBy_run_le (hover : NoOvershoot codec len) (n : Nat) :
    takenBy codec (vs1003Record codec header len n).polls ≤ len := by
  have hrun : Accounting codec header len (vs1003Record codec header len n) ∧
      takenBy codec (vs1003Record codec header len n).polls ≤ len :=
    Function.Iterate.rec
      (fun s => Accounting codec header len s ∧ takenBy codec s.polls ≤ len)
      ⟨Accounting.init, Nat.zero_le len⟩
      (fun _ h => ⟨h.1.step, takenBy_step_le hover h.1 h.2⟩) n
  exact hrun.2

/-! ## Reaching the test -/

/-- The inner loop ends. -/
theorem exists_test_of_drain (codec : Codec) (t : Nat) :
    ∀ s : Recording, s.pc = .drain t →
      ∃ k, ((Recording.step codec)^[k] s).pc = .test ∧
        ((Recording.step codec)^[k] s).polls = s.polls := by
  induction t using Nat.strong_induction_on with
  | _ t ih =>
      intro s hpc
      rcases s.step_cases codec with
        ⟨hpc', -, -⟩ | ⟨hpc', -, -⟩ | ⟨t', hpc', hlow, hhigh, hstep⟩ | ⟨t', -, -, hstep⟩ |
          ⟨hpc', -⟩
      · exact absurd (hpc'.symm.trans hpc) Pc.noConfusion
      · exact absurd (hpc'.symm.trans hpc) Pc.noConfusion
      · obtain rfl : t' = t := Pc.drain.inj (hpc'.symm.trans hpc)
        rcases ih (t' - 256) (by omega) (s.step codec) (by rw [hstep]) with ⟨k, hk⟩
        refine ⟨k + 1, hk.1, ?_⟩
        rw [Function.iterate_succ_apply, hk.2, hstep]
      · exact ⟨1, by simp [hstep], by simp [hstep]⟩
      · exact absurd (hpc'.symm.trans hpc) Pc.noConfusion

variable (header) in
/-- The run is at its outer test after every number of polls that it reaches. -/
theorem exists_test_after (j : Nat) (hj : ∀ i < j, takenBy codec i < len) :
    ∃ n, (vs1003Record codec header len n).pc = .test ∧
      (vs1003Record codec header len n).polls = j := by
  induction j with
  | zero => exact ⟨0, rfl, rfl⟩
  | succ j ih =>
      obtain ⟨n, hpc, hpolls⟩ := ih fun i hi => hj i (Nat.lt_succ_of_lt hi)
      have hlen := (accounting_run codec header len n).len_eq
      rw [hpc, hpolls] at hlen
      simp only [Pc.pending] at hlen
      have hlt := hj j (Nat.lt_succ_self j)
      have hne : (vs1003Record codec header len n).len ≠ 0 := by omega
      have hstep : ((vs1003Record codec header len n).step codec).pc =
            .drain (codec.hdat1 j).toNat ∧
          ((vs1003Record codec header len n).step codec).polls = j + 1 := by
        simp [Recording.step, hpc, hne, hpolls]
      rcases exists_test_of_drain codec _ _ hstep.1 with ⟨k, hk⟩
      refine ⟨n + (k + 1), ?_, ?_⟩
      · rw [vs1003Record_add, Function.iterate_succ_apply]
        exact hk.1
      · rw [vs1003Record_add, Function.iterate_succ_apply, hk.2]
        exact hstep.2

/-! ## The declared length -/

/-- Unless it overshoots, a run that has written `len` batches stops at once. -/
theorem stops_after (hover : NoOvershoot codec len) (n : Nat)
    (hpopped : (vs1003Record codec header len n).popped = 256 * len) :
    ∃ k, (vs1003Record codec header len (n + k)).pc = .stopped ∧
      (vs1003Record codec header len (n + k)).polls = (vs1003Record codec header len n).polls ∧
      (vs1003Record codec header len (n + k)).file = (vs1003Record codec header len n).file := by
  have hacc := accounting_run codec header len n
  have hle := takenBy_run_le header hover n
  have hsum := hacc.popped_eq
  have hlen := hacc.len_eq
  simp only [vs1003Record_add]
  generalize vs1003Record codec header len n = s at hpopped hle hsum hlen
  rcases s.step_cases codec with
    ⟨hpc, hne, hstep⟩ | ⟨hpc, heq, hstep⟩ | ⟨t, hpc, hlow, hhigh, hstep⟩ |
      ⟨t, hpc, hout, hstep⟩ | ⟨hpc, hstep⟩
  · rw [hpc] at hsum hlen
    simp only [Pc.pending] at hsum hlen
    omega
  · exact ⟨1, by simp [hstep], by simp [hstep], by simp [hstep]⟩
  · have hbatch := batchesOf_succ hlow hhigh
    rw [hpc] at hsum
    simp only [Pc.pending] at hsum
    omega
  · rw [hpc] at hsum hlen
    simp only [Pc.pending, batchesOf_of_out hout] at hsum hlen
    have hzero : s.len = 0 := by omega
    have hlast : (s.step codec).step codec = { s with pc := .stopped } := by
      rw [hstep]
      simp [Recording.step, hzero]
    have htwo : (Recording.step codec)^[2] s = { s with pc := .stopped } := hlast
    exact ⟨2, by rw [htwo], by rw [htwo], by rw [htwo]⟩
  · exact ⟨0, hpc, rfl, rfl⟩

/-- A recording has the length that its header declares if and only if no poll
of the fill level finds more batches than are left. -/
theorem exactRecording_iff (codec : Codec) (header : Vector UInt8 60) {len : Nat}
    (hbound : 512 * len + 52 < 2 ^ 31) :
    ExactRecording codec header len ↔ NoOvershoot codec len := by
  constructor
  · intro hexact i hi
    by_contra hgt
    have hall : ∀ i' < i + 1, takenBy codec i' < len := fun i' hi' =>
      Nat.lt_of_le_of_lt (takenBy_mono codec (Nat.le_of_lt_succ hi')) hi
    rcases exists_test_after header (i + 1) hall with ⟨n, hpc, hpolls⟩
    have hlen := (accounting_run codec header len n).len_eq
    have hnonneg := hexact.len_nonneg n
    rw [hpc, hpolls] at hlen
    simp only [Pc.pending] at hlen
    omega
  · intro hover
    refine ⟨?_, ?_, stops_after hover⟩
    · intro n
      have hlen := (accounting_run codec header len n).len_eq
      have hle := takenBy_run_le header hover n
      omega
    · intro n hpc
      rcases accounting_run codec header len n with ⟨hlen, hpopped, hfile, hzero⟩
      have hstopped := hzero hpc
      rw [hpc] at hlen hpopped
      simp only [Pc.pending] at hlen hpopped
      have hcount : (vs1003Record codec header len n).popped = 256 * len := by omega
      rw [hcount] at hfile
      have hbody := length_wordsBytes codec (256 * len)
      have hriff := le32_wrtieHeader_riff header (n := 2 * len) 8000 (by omega)
      have hdata := le32_wrtieHeader_data header (n := 2 * len) 8000 (by omega)
      refine ⟨_, _, rfl, hfile, rfl, by omega, ?_, ?_⟩
      · rw [hfile, List.length_append, Vector.length_toList, hbody, hriff]
        omega
      · rw [hfile, List.length_append, Vector.length_toList, hbody, hdata]
        omega

/-- Two batches, each found by a poll of its own. -/
theorem exactRecording_single_batches :
    ExactRecording ⟨fun _ => 256, fun _ => 0⟩ Recorder.header 2 ↔
      NoOvershoot ⟨fun _ => 256, fun _ => 0⟩ 2 :=
  exactRecording_iff _ _ (by decide)

/-- One requested batch and a first poll that finds two: `len` becomes negative. -/
theorem exactRecording_two_batches :
    (vs1003Record ⟨fun _ => 512, fun _ => 0⟩ Recorder.header 1 3).len = -1 ∧
      ¬ ExactRecording ⟨fun _ => 512, fun _ => 0⟩ Recorder.header 1 := by
  have hlen : (vs1003Record ⟨fun _ => 512, fun _ => 0⟩ Recorder.header 1 3).len = -1 := by
    rfl
  refine ⟨hlen, fun hexact => ?_⟩
  have hnonneg := hexact.len_nonneg 3
  rw [hlen] at hnonneg
  exact absurd hnonneg (by decide)

end Run

end Recorder
end Ls2kMorse
