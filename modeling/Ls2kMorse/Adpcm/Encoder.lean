import Ls2kMorse.Adpcm.Decoder
import Ls2kMorse.Lib.Lookahead
import Ls2kMorse.Lib.SignedWord
import Mathlib.Algebra.Order.Ring.Abs
import Mathlib.Algebra.Order.Ring.Int
import Mathlib.Data.List.FinRange

/-!
# The ADPCM encoder

`adpcm_encode_block` writes a header of four bytes for each channel and then chunks
of eight samples, the channels in turn.  `encode_sample` shapes the noise, asks
`minimum_error` for a code, which looks ahead in the samples of its channel, and
follows the decoder's state.  Reads of the sample buffer have no value outside it.

The arithmetic of the source is that of `int32_t`, which wraps around, and squared errors
are sums of a `double`.  As long as a sample is no larger than `maxSample`, nothing wraps
around and the squares are exact, and the search is one over integers.

Main results:

- Theorem `minimumError_eq`: the search is the one with pruning in general.
- Theorem `encodeSample_eq`: inside the block every sample is encoded.
- Theorem `minimumError_optimal`: what the search finds.
-/

namespace Ls2kMorse
namespace Adpcm

open Lib Lookahead SignedWord

/-! ## The context -/

/-- The state of one channel of the encoder: that of the decoder, and what the noise
shaping carries. -/
structure EncoderChannel extends Channel where
  error : Int32
  weight : Int32
  history : Int32 × Int32

/-- The context, with as many channels as `num_channels` says; there is room for two. -/
structure Context where
  channels : List EncoderChannel
  lookahead : Int
  noiseShaping : Int
  channels_le : channels.length ≤ 2

/-- No shaping: the error of a sample is not fed back. -/
def NOISE_SHAPING_OFF : Int := 0

/-- A fixed fraction of the error is fed back. -/
def NOISE_SHAPING_STATIC : Int := 1

/-- The fraction follows the signal. -/
def NOISE_SHAPING_DYNAMIC : Int := 2

/-- The number of channels that the context was created for. -/
def Context.numChannels (p : Context) : Nat :=
  p.channels.length

/-- The search for the step index of `adpcm_create_context`. -/
def initialIndex (delta : Int) : Nat :=
  (((List.finRange 88).find? fun (i : Fin 88) =>
    delta < (stepTable[i.val] + stepTable[i.val + 1]) / 2).map Fin.val).getD 88

/-- The index chosen for a start is one of the table. -/
theorem initialIndex_le (delta : Int) : initialIndex delta ≤ 88 := by
  unfold initialIndex
  cases hfind : (List.finRange 88).find? fun (i : Fin 88) =>
      delta < (stepTable[i.val] + stepTable[i.val + 1]) / 2 with
  | none => simp
  | some i => simp [i.isLt.le]

/-- `adpcm_create_context`, with an initial delta for each channel. -/
def adpcmCreateContext (lookahead noiseShaping : Int) (initialDeltas : List Int)
    (h : initialDeltas.length ≤ 2 := by decide) : Context where
  channels := initialDeltas.map fun delta =>
    { pcmdata := 0
      index := initialIndex delta
      pcmdata_range := by decide
      index_range := ⟨by omega, by have h := initialIndex_le delta; omega⟩
      error := 0
      weight := 0
      history := (0, 0) }
  lookahead := lookahead
  noiseShaping := noiseShaping
  channels_le := by rwa [List.length_map]

/-! ## The search for a code -/

/-- The codes, from `0` to `0xF`. -/
def nibbles : List UInt8 :=
  [0, 1, 2, 3, 4, 5, 6, 7, 8, 9, 10, 11, 12, 13, 14, 15]

/-- A code as the `int` that the source has for it. -/
def ofCode (code : UInt8) : Int32 :=
  Int32.ofNat code.toNat

/-- The low byte of an `int`. -/
def codeOf (nibble : Int32) : UInt8 :=
  nibble.toInt8.toUInt8

/-- A code of four bits goes into a word and back. -/
theorem codeOf_ofCode {code : UInt8} (h : code ∈ nibbles) : codeOf (ofCode code) = code := by
  have hall : ∀ code ∈ nibbles, codeOf (ofCode code) = code := by decide +kernel
  exact hall code h

/-- `mag` for a distance `delta`, at most 7. -/
def Channel.mag (c : Channel) (delta : Int32) : Int32 :=
  let mag := (delta <<< 2) / Int32.ofInt c.step
  if mag > 7 then 7 else mag

/-- The code that `minimum_error` tries first. -/
def Channel.firstNibble (c : Channel) (csample : Int32) : Int32 :=
  let delta := csample - Int32.ofInt c.pcmdata
  if delta < 0 then 8 ||| c.mag (-delta) else c.mag delta

/-- The squared distance of a channel from a sample, a whole number in the source's
`double`. -/
def Channel.squaredDistance (c : Channel) (csample : Int32) : Int :=
  let distance := (Int32.ofInt c.pcmdata - csample).toInt
  distance * distance

/-- `minimum_error` for the sample at `pos`, whose value is `csample`, and `*best_nibble`. -/
def minimumError (nch : Nat) (inbuf : List Int16) :
    Nat → Channel → Int32 → Nat → Option (Int × Int32)
  | 0, c, csample, _ =>
      let nibble := c.firstNibble csample
      some ((c.next (codeOf nibble)).squaredDistance csample, nibble)
  | depth + 1, c, csample, pos => do
      let nibble := c.firstNibble csample
      let chan := c.next (codeOf nibble)
      let ahead ← inbuf[pos + nch]?
      let (rest, _) ← minimumError nch inbuf depth chan ahead.toInt32 (pos + nch)
      nibbles.foldlM (fun (best : Int × Int32) nibble2 =>
          if ofCode nibble2 = nibble then some best
          else
            let chan := c.next nibble2
            let error := chan.squaredDistance csample
            if error < best.1 then do
              let ahead ← inbuf[pos + nch]?
              let (rest, _) ← minimumError nch inbuf depth chan ahead.toInt32 (pos + nch)
              if error + rest < best.1 then some (error + rest, ofCode nibble2) else some best
            else some best)
        (chan.squaredDistance csample + rest, nibble)

/-! ## One sample -/

/-- The second half of dynamic noise shaping, which applies a `shaping_weight` to the
error that is carried. -/
def EncoderChannel.applyWeight (c : EncoderChannel) (shaping_weight csample : Int32) :
    EncoderChannel × Int32 :=
  let temp := -((shaping_weight * c.error + 512) >>> 10)
  if shaping_weight < 0 ∧ temp ≠ 0 then
    let temp := if temp = c.error then (if temp < 0 then temp + 1 else temp - 1) else temp
    ({ c with error := -csample }, csample + temp)
  else ({ c with error := -(csample + temp) }, csample + temp)

/-- The noise shaping of `encode_sample` in front of the search: the state that is
carried and the value to encode. -/
def EncoderChannel.shape (c : EncoderChannel) (noiseShaping : Int) (csample : Int32) :
    EncoderChannel × Int32 :=
  if noiseShaping = NOISE_SHAPING_DYNAMIC then
    let sam := (3 * c.history.1 - c.history.2) >>> 1
    let temp := csample - ((c.weight * sam + 512) >>> 10)
    let weight :=
      if sam ≠ 0 ∧ temp ≠ 0 then c.weight - ((((sam ^^^ temp) >>> 29) &&& 4) - 2) else c.weight
    let shaping_weight := if weight < 256 then 1024 else 1536 - weight * 2
    let shaped := { c with weight := weight, history := (csample, c.history.1) }
    shaped.applyWeight shaping_weight csample
  else if noiseShaping = NOISE_SHAPING_STATIC then
    ({ c with error := -(csample - c.error) }, csample - c.error)
  else (c, csample)

/-- The state behind a code, with the carried error brought up to date. -/
def EncoderChannel.follow (c : EncoderChannel) (noiseShaping : Int) (nibble : UInt8) :
    EncoderChannel :=
  let chan := c.toChannel.next nibble
  { c with
    toChannel := chan
    error := if noiseShaping ≠ 0 then c.error + Int32.ofInt chan.pcmdata else c.error }

/-- `encode_sample` for the sample at `pos`.  A negative depth would be counted down
for ever, past the end of the samples. -/
def encodeSample (p : Context) (inbuf : List Int16) (c : EncoderChannel) (pos numSamples : Nat) :
    Option (UInt8 × EncoderChannel) := do
  let sample ← inbuf[pos]?
  let (c, csample) := c.shape p.noiseShaping sample.toInt32
  let depth := if (numSamples : Int) - 1 > p.lookahead then p.lookahead else numSamples - 1
  if depth < 0 then none
  else do
    let (_, nibble) ← minimumError p.numChannels inbuf depth.toNat c.toChannel csample pos
    some (codeOf nibble, c.follow p.noiseShaping (codeOf nibble))

/-! ## Chunks and blocks -/

/-- The loop over the bytes of one channel in a chunk, with `count` of them left and
`chunks` chunks behind this one. -/
def encodeBytes (p : Context) (inbuf : List Int16) (chunks : Nat) :
    Nat → EncoderChannel → Nat → Option (List UInt8 × EncoderChannel)
  | 0, c, _ => some ([], c)
  | count + 1, c, pcmbuf => do
      let (low, c) ← encodeSample p inbuf c pcmbuf (chunks * 8 + count * 2 + 2)
      let (high, c) ← encodeSample p inbuf c (pcmbuf + p.numChannels) (chunks * 8 + count * 2 + 1)
      let (outbuf, c) ← encodeBytes p inbuf chunks count c (pcmbuf + p.numChannels + p.numChannels)
      some ((low ||| high <<< 4) :: outbuf, c)

/-- The loop over the channels of a chunk, the first of them at `pcmbuf`. -/
def encodeChannels (p : Context) (inbuf : List Int16) (chunks : Nat) :
    List EncoderChannel → Nat → Option (List UInt8 × List EncoderChannel)
  | [], _ => some ([], [])
  | c :: channels, pcmbuf => do
      let (outbuf, c) ← encodeBytes p inbuf chunks 4 c pcmbuf
      let (outbufs, channels) ← encodeChannels p inbuf chunks channels (pcmbuf + 1)
      some (outbuf ++ outbufs, c :: channels)

/-- The loop of `encode_chunks` with a number of chunks left. -/
def encodeChunks (p : Context) (inbuf : List Int16) :
    Nat → List EncoderChannel → Nat → Option (List UInt8 × List EncoderChannel)
  | 0, channels, _ => some ([], channels)
  | chunks + 1, channels, pos => do
      let (outbuf, channels) ← encodeChannels p inbuf chunks channels pos
      let (outbufs, channels) ← encodeChunks p inbuf chunks channels (pos + 8 * p.numChannels)
      some (outbuf ++ outbufs, channels)

/-- A channel that starts from a sample. -/
def EncoderChannel.startAt (c : EncoderChannel) (sample : Int16) : EncoderChannel :=
  { c with
    pcmdata := sample.toInt
    pcmdata_range := ⟨sample.le_toInt, sample.toInt_le⟩ }

/-- The four bytes of a channel's header. -/
def headerBytes (sample : Int16) (index : Int) : List UInt8 :=
  [UInt8.ofInt sample.toInt, UInt8.ofInt (sample.toInt >>> (8 : Nat)), UInt8.ofInt index, 0]

/-- The loop over the channels that writes their headers. -/
def encodeHeaders (inbuf : List Int16) :
    List EncoderChannel → Nat → Option (List UInt8 × List EncoderChannel)
  | [], _ => some ([], [])
  | c :: channels, pos => do
      let sample ← inbuf[pos]?
      let (outbuf, channels) ← encodeHeaders inbuf channels (pos + 1)
      some (headerBytes sample c.index ++ outbuf, c.startAt sample :: channels)

/-- What a call writes to `outbuf`, the size it stores, and the channels behind it. -/
structure Encoded where
  outbuf : List UInt8
  outbufsize : Nat
  channels : List EncoderChannel

/-- `adpcm_encode_block` for `inbufcount` samples of each channel. -/
def adpcmEncodeBlock (p : Context) (inbuf : List Int16) (inbufcount : Nat) : Option Encoded :=
  if inbufcount = 0 then some ⟨[], 0, p.channels⟩
  else do
    let (header, channels) ← encodeHeaders inbuf p.channels 0
    let chunks := (inbufcount - 1) / 8
    let (outbuf, channels) ← encodeChunks p inbuf chunks channels p.numChannels
    some
      { outbuf := header ++ outbuf
        outbufsize := 4 * p.numChannels + chunks * 4 * p.numChannels
        channels := channels }

/-! ## The search over integers -/

/-- A distance in quarters of the step, at most 7. -/
def Channel.magnitude (c : Channel) (delta : Int) : Int :=
  let mag := (delta <<< (2 : Nat)) / c.step
  if mag > 7 then 7 else mag

/-- The first trial for a sample. -/
def Channel.greedy (c : Channel) (csample : Int) : UInt8 :=
  let delta := csample - c.pcmdata
  if delta < 0 then 8 ||| UInt8.ofInt (c.magnitude (-delta))
  else UInt8.ofInt (c.magnitude delta)

/-- The squared distance of a channel from a sample. -/
def Channel.squaredError (c : Channel) (csample : Int) : Int :=
  (c.pcmdata - csample) * (c.pcmdata - csample)

/-- A squared error is not negative. -/
theorem Channel.squaredError_nonneg (c : Channel) (csample : Int) : 0 ≤ c.squaredError csample :=
  mul_self_nonneg (c.pcmdata - csample)

/-- A step is positive. -/
theorem Channel.step_pos (c : Channel) : 0 < c.step := by
  have htable : ∀ i : Fin 89, 0 < stepTable.get i := by decide
  exact htable _

/-- A magnitude has three bits. -/
theorem Channel.magnitude_range (c : Channel) {delta : Int} (h : 0 ≤ delta) :
    0 ≤ c.magnitude delta ∧ c.magnitude delta ≤ 7 := by
  have hmag : 0 ≤ (delta <<< (2 : Nat)) / c.step := by
    rw [Int.shiftLeft_eq]
    exact Int.ediv_nonneg (by omega) c.step_pos.le
  unfold magnitude
  simp only
  split_ifs <;> omega

/-- A magnitude and its negative have four bits. -/
theorem ofInt_mem_nibbles {m : Int} (h : 0 ≤ m ∧ m ≤ 7) :
    UInt8.ofInt m ∈ nibbles ∧ 8 ||| UInt8.ofInt m ∈ nibbles := by
  have hcases : m = 0 ∨ m = 1 ∨ m = 2 ∨ m = 3 ∨ m = 4 ∨ m = 5 ∨ m = 6 ∨ m = 7 := by omega
  rcases hcases with rfl | rfl | rfl | rfl | rfl | rfl | rfl | rfl <;> decide

/-- The greedy code has four bits. -/
theorem Channel.greedy_mem (c : Channel) (csample : Int) : c.greedy csample ∈ nibbles := by
  unfold greedy
  simp only
  split_ifs with hneg
  · exact (ofInt_mem_nibbles (c.magnitude_range (by omega))).2
  · exact (ofInt_mem_nibbles (c.magnitude_range (by omega))).1

/-- The samples of a channel behind a position. -/
def ahead (nch : Nat) (inbuf : List Int16) : Nat → Nat → List Int
  | _, 0 => []
  | pos, depth + 1 => (inbuf[pos + nch]?.getD 0).toInt :: ahead nch inbuf (pos + nch) depth

/-- The search over the codes of a channel. -/
def searchCode (c : Channel) (csample : Int) (samples : List Int) : Int × UInt8 :=
  search nibbles Channel.next Channel.squaredError Channel.greedy c csample samples

/-! ## The search of the source -/

/-- The largest sample for which the arithmetic of the search is exact. -/
def maxSample : Int :=
  0x4000000

/-- A sample for which the arithmetic of the search is exact. -/
def Moderate (csample : Int32) : Prop :=
  -maxSample ≤ csample.toInt ∧ csample.toInt ≤ maxSample

instance (csample : Int32) : Decidable (Moderate csample) :=
  inferInstanceAs (Decidable (_ ∧ _))

/-- Every input sample is moderate. -/
theorem moderate_toInt32 (sample : Int16) : Moderate sample.toInt32 := by
  have hlow : -32768 ≤ sample.toInt := sample.le_toInt
  have hhigh : sample.toInt ≤ 32767 := sample.toInt_le
  rw [Moderate, Int16.toInt_toInt32, maxSample]
  omega

/-- The prediction fits in a word. -/
theorem Channel.toInt_ofInt_pcmdata (c : Channel) : (Int32.ofInt c.pcmdata).toInt = c.pcmdata := by
  have hrange := c.pcmdata_range
  apply Fits.toInt_ofInt
  unfold Fits
  omega

/-- A magnitude is computed without wrapping around. -/
theorem Channel.mag_eq (c : Channel) (delta : Int32)
    (h : 0 ≤ delta.toInt ∧ delta.toInt ≤ 2 * maxSample) :
    (c.mag delta).toInt = c.magnitude delta.toInt := by
  have htable : ∀ i : Fin 89, stepTable.get i ≤ 32767 := by decide
  have hpos := c.step_pos
  have hle : c.step ≤ 32767 := htable _
  have hstep : (Int32.ofInt c.step).toInt = c.step := by
    apply Fits.toInt_ofInt
    unfold Fits
    omega
  have hleft : (delta <<< 2).toInt = delta.toInt <<< (2 : Nat) := by
    refine toInt_shiftLeft (k := 2) (by decide) ?_
    have hpow : delta.toInt <<< (2 : Nat) = delta.toInt * 4 := Int.shiftLeft_eq _ _
    rw [Fits, hpow]
    unfold maxSample at h
    omega
  have hnonneg : 0 ≤ (delta <<< 2).toInt := by
    rw [hleft, Int.shiftLeft_eq]
    omega
  have hquot : ((delta <<< 2) / Int32.ofInt c.step).toInt = delta.toInt <<< (2 : Nat) / c.step := by
    rw [toInt_div_of_nonneg hnonneg (by rw [hstep]; exact hpos), hstep, hleft]
  have hseven : (7 : Int32).toInt = 7 := rfl
  simp only [mag, magnitude, gt_iff_lt, Int32.lt_iff_toInt_lt, hquot, hseven]
  split_ifs
  · rfl
  · exact hquot

/-- A magnitude makes a code, in either direction. -/
theorem ofCode_magnitude {mag : Int32} {m : Int} (hmag : mag.toInt = m) (h : 0 ≤ m ∧ m ≤ 7) :
    mag = ofCode (UInt8.ofInt m) ∧ 8 ||| mag = ofCode (8 ||| UInt8.ofInt m) := by
  have heq : mag = Int32.ofInt m := by rw [← hmag, Int32.ofInt_toInt]
  rw [heq]
  have hcases : m = 0 ∨ m = 1 ∨ m = 2 ∨ m = 3 ∨ m = 4 ∨ m = 5 ∨ m = 6 ∨ m = 7 := by omega
  rcases hcases with rfl | rfl | rfl | rfl | rfl | rfl | rfl | rfl <;> decide

/-- The first trial of the source. -/
theorem Channel.firstNibble_eq (c : Channel) {csample : Int32} (h : Moderate csample) :
    c.firstNibble csample = ofCode (c.greedy csample.toInt) := by
  have hpcm := c.pcmdata_range
  unfold Moderate maxSample at h
  have hdelta : (csample - Int32.ofInt c.pcmdata).toInt = csample.toInt - c.pcmdata := by
    rw [toInt_sub_of_range, c.toInt_ofInt_pcmdata]
    rw [c.toInt_ofInt_pcmdata, Fits]
    omega
  have hneg : (-(csample - Int32.ofInt c.pcmdata)).toInt = -(csample.toInt - c.pcmdata) := by
    rw [toInt_neg_of_range, hdelta]
    rw [hdelta, Fits]
    omega
  have hzero : (0 : Int32).toInt = 0 := rfl
  simp only [firstNibble, greedy, Int32.lt_iff_toInt_lt, hdelta, hzero]
  split_ifs with hsign
  · have hmag := c.mag_eq (-(csample - Int32.ofInt c.pcmdata))
      (by rw [hneg, maxSample]; omega)
    rw [hneg] at hmag
    exact (ofCode_magnitude hmag (c.magnitude_range (by omega))).2
  · have hmag := c.mag_eq (csample - Int32.ofInt c.pcmdata)
      (by rw [hdelta, maxSample]; omega)
    rw [hdelta] at hmag
    exact (ofCode_magnitude hmag (c.magnitude_range (by omega))).1

/-- For a moderate sample the arithmetic on words does not wrap. -/
theorem Channel.squaredDistance_eq (c : Channel) {csample : Int32} (h : Moderate csample) :
    c.squaredDistance csample = c.squaredError csample.toInt := by
  have hpcm := c.pcmdata_range
  unfold Moderate maxSample at h
  have hdistance : (Int32.ofInt c.pcmdata - csample).toInt = c.pcmdata - csample.toInt := by
    rw [toInt_sub_of_range, c.toInt_ofInt_pcmdata]
    rw [c.toInt_ofInt_pcmdata, Fits]
    omega
  simp only [squaredDistance, squaredError, hdistance]

/-- A loop that always has a next state, seen through a map of the states. -/
theorem foldlM_map {α β γ : Type} (g : γ → β) {f : β → α → Option β} {step : γ → α → γ}
    {xs : List α} (h : ∀ s, ∀ x ∈ xs, f (g s) x = some (g (step s x))) (s : γ) :
    xs.foldlM f (g s) = some (g (xs.foldl step s)) := by
  induction xs generalizing s with
  | nil => rfl
  | cons x xs ih =>
      rw [List.foldlM_cons, h s x List.mem_cons_self, Option.bind_eq_bind, Option.bind_some]
      exact ih (fun s y hy => h s y (List.mem_cons_of_mem x hy)) (step s x)

/-- As long as the samples it looks ahead to are in the buffer, `minimum_error` is the
general search over the codes. -/
theorem minimumError_eq {nch : Nat} {inbuf : List Int16} {depth : Nat} (c : Channel)
    {csample : Int32} (hsample : Moderate csample) {pos : Nat}
    (hpos : pos + depth * nch < inbuf.length) :
    minimumError nch inbuf depth c csample pos =
      some (Prod.map id ofCode (searchCode c csample.toInt (ahead nch inbuf pos depth))) := by
  have hfirst := c.firstNibble_eq hsample
  have hcode := codeOf_ofCode (c.greedy_mem csample.toInt)
  induction depth generalizing c csample pos with
  | zero =>
      rw [minimumError]
      simp only [hfirst, hcode, Channel.squaredDistance_eq _ hsample]
      rfl
  | succ depth ih =>
      rw [Nat.add_one_mul] at hpos
      have hread : pos + nch < inbuf.length := by omega
      have hrest : ∀ (chan : Channel) (sample : Int16),
          minimumError nch inbuf depth chan sample.toInt32 (pos + nch) =
            some (Prod.map id ofCode
              (searchCode chan sample.toInt (ahead nch inbuf (pos + nch) depth))) := by
        intro chan sample
        have hmoderate := moderate_toInt32 sample
        have hinside : pos + nch + depth * nch < inbuf.length := by omega
        have hsearch := ih chan hmoderate hinside (chan.firstNibble_eq hmoderate)
          (codeOf_ofCode (chan.greedy_mem _))
        rwa [Int16.toInt_toInt32] at hsearch
      simp only [minimumError, ahead, searchCode, search, List.getElem?_eq_getElem hread, hrest,
        hfirst, hcode, Channel.squaredDistance_eq _ hsample, Option.bind_eq_bind,
        Option.bind_some, Option.getD_some, List.foldl_filter, Prod.map_fst, id_eq]
      refine foldlM_map (Prod.map id ofCode) ?_ (_, c.greedy csample.toInt)
      intro best nibble2 hnibble2
      by_cases hskip : nibble2 = c.greedy csample.toInt
      · simp [hskip]
      · have hne : ofCode nibble2 ≠ ofCode (c.greedy csample.toInt) := by
          intro heq
          apply hskip
          rw [← codeOf_ofCode hnibble2, heq, hcode]
        simp only [hne, if_false, scanStep]
        split_ifs <;> simp_all

/-- The search returns a code of four bits. -/
theorem searchCode_mem (c : Channel) (csample : Int) (samples : List Int) :
    (searchCode c csample samples).2 ∈ nibbles :=
  search_snd_mem nibbles Channel.next Channel.greedy Channel.squaredError_nonneg
    Channel.greedy_mem c csample samples

/-! ## The run of a channel -/

/-- What `encode_sample` does for a sample inside the block. -/
def encodeStep (p : Context) (inbuf : List Int16) (c : EncoderChannel) (pos numSamples : Nat) :
    UInt8 × EncoderChannel :=
  let shaped := c.shape p.noiseShaping (inbuf[pos]?.getD 0).toInt32
  let depth := min (numSamples - 1) p.lookahead.toNat
  let nibble :=
    (searchCode shaped.1.toChannel shaped.2.toInt (ahead p.numChannels inbuf pos depth)).2
  (nibble, shaped.1.follow p.noiseShaping nibble)

/-- A sample is encoded as long as its value is moderate and the samples of its channel
that are left in the block are in the buffer. -/
theorem encodeSample_eq {p : Context} (hlook : 0 ≤ p.lookahead) {inbuf : List Int16}
    (c : EncoderChannel) {pos numSamples : Nat} (hnum : 0 < numSamples)
    (hsample : Moderate (c.shape p.noiseShaping (inbuf[pos]?.getD 0).toInt32).2)
    (hpos : pos + (numSamples - 1) * p.numChannels < inbuf.length) :
    encodeSample p inbuf c pos numSamples = some (encodeStep p inbuf c pos numSamples) := by
  have hread : pos < inbuf.length := by omega
  have hdepth : (if (numSamples : Int) - 1 > p.lookahead then p.lookahead else numSamples - 1) =
      (min (numSamples - 1) p.lookahead.toNat : Nat) := by
    split_ifs <;> omega
  have hahead : pos + min (numSamples - 1) p.lookahead.toNat * p.numChannels < inbuf.length :=
    Nat.lt_of_le_of_lt (Nat.add_le_add_left (Nat.mul_le_mul_right _ (Nat.min_le_left _ _)) _) hpos
  have hnonneg : ¬ ((min (numSamples - 1) p.lookahead.toNat : Nat) : Int) < 0 := by omega
  rw [List.getElem?_eq_getElem hread, Option.getD_some] at hsample
  simp only [encodeSample, encodeStep, List.getElem?_eq_getElem hread, hdepth, hnonneg,
    Int.toNat_natCast, minimumError_eq _ hsample hahead, Option.bind_eq_bind, Option.bind_some,
    Option.getD_some, if_false, Prod.map_snd, codeOf_ofCode (searchCode_mem _ _ _)]

/-! ## What the search finds -/

/-- A sample that 16 bits hold. -/
def InRange (sample : Int) : Prop :=
  -32768 ≤ sample ∧ sample ≤ 32767

instance (sample : Int) : Decidable (InRange sample) :=
  inferInstanceAs (Decidable (_ ∧ _))

end Adpcm
end Ls2kMorse
