import Ls2kMorse.Adpcm.Encoder
import Ls2kMorse.Adpcm.Interleaved

/-!
# Encoder and decoder in step

Each channel of a block is encoded sample after sample, and the channels do not
touch one another.  The decoder, which knows only the header and the codes, goes
through the very states of the encoder, whatever codes were chosen.

Main results:

- Theorem `encodeChunks_eq`: the bytes of a block are the packed codes of its
  channels in turns of eight.
- Theorem `decode_encode`: what a block decodes to.
-/

namespace Ls2kMorse
namespace Adpcm

/-! ## The run of a channel -/

/-- The state of the channel `ch` behind the first `k` of the `total` samples that
follow its first one. -/
def stateAfter (p : Context) (inbuf : List Int16) (total : Nat) (c : EncoderChannel) (ch : Nat) :
    Nat → EncoderChannel
  | 0 => c.startAt (inbuf[ch]?.getD 0)
  | k + 1 =>
      (encodeStep p inbuf (stateAfter p inbuf total c ch k) ((k + 1) * p.numChannels + ch)
        (total - k)).2

/-- The code of the sample behind the first `k` ones. -/
def codeAt (p : Context) (inbuf : List Int16) (total : Nat) (c : EncoderChannel) (ch k : Nat) :
    UInt8 :=
  (encodeStep p inbuf (stateAfter p inbuf total c ch k) ((k + 1) * p.numChannels + ch)
    (total - k)).1

/-- Noise shaping does not touch what the decoder has. -/
theorem EncoderChannel.shape_toChannel (c : EncoderChannel) (noiseShaping : Int)
    (csample : Int32) :
    (c.shape noiseShaping csample).1.toChannel = c.toChannel := by
  have happly : ∀ (c : EncoderChannel) (shaping_weight : Int32),
      (c.applyWeight shaping_weight csample).1.toChannel = c.toChannel := by
    intro c shaping_weight
    simp only [applyWeight]
    split_ifs <;> rfl
  unfold shape
  split_ifs
  · exact happly _ _
  · rfl
  · rfl

section Run

variable (p : Context) (inbuf : List Int16) (total : Nat) (c : EncoderChannel) (ch k : Nat)

/-- Every code emitted has four bits. -/
theorem codeAt_mem : codeAt p inbuf total c ch k ∈ nibbles :=
  searchCode_mem _ _ _

/-- The encoder follows the decoder's step for the code it has chosen. -/
theorem stateAfter_succ_toChannel :
    (stateAfter p inbuf total c ch (k + 1)).toChannel =
      (stateAfter p inbuf total c ch k).toChannel.next (codeAt p inbuf total c ch k) := by
  simp only [stateAfter, codeAt, encodeStep, EncoderChannel.follow,
    EncoderChannel.shape_toChannel]

end Run

/-! ## Nothing wraps around -/

open Lib SignedWord

/-- What dynamic noise shaping adds to a sample is cut to 32 bits and then divided by
1024. -/
theorem moderate_applyWeight (c : EncoderChannel) (shaping_weight : Int32) (sample : Int16) :
    Moderate (c.applyWeight shaping_weight sample.toInt32).2 := by
  have hlow : -32768 ≤ sample.toInt := sample.le_toInt
  have hhigh : sample.toInt ≤ 32767 := sample.toInt_le
  have hadd : ∀ t d : Int32, -0x200000 ≤ t.toInt ∧ t.toInt ≤ 0x200000 →
      -1 ≤ d.toInt ∧ d.toInt ≤ 1 → Moderate (sample.toInt32 + (t + d)) := by
    intro t d ht hd
    have hsum : (t + d).toInt = t.toInt + d.toInt := by
      apply toInt_add_of_range
      unfold Fits
      omega
    have htotal : (sample.toInt32 + (t + d)).toInt = sample.toInt + (t.toInt + d.toInt) := by
      rw [toInt_add_of_range, Int16.toInt_toInt32, hsum]
      rw [Int16.toInt_toInt32, hsum, Fits]
      omega
    rw [Moderate, htotal, maxSample]
    omega
  have htemp : ∀ x : Int32, -0x200000 ≤ (-(x >>> 10)).toInt ∧ (-(x >>> 10)).toInt ≤ 0x200000 := by
    intro x
    have hshift : (x >>> 10).toInt = x.toInt / 1024 :=
      (toInt_shiftRight x (k := 10) (by decide)).trans (Int.shiftRight_eq_div_pow _ _)
    have hrange := fits_toInt x
    unfold Fits at hrange
    rw [toInt_neg_of_range, hshift]
    · omega
    · rw [hshift, Fits]
      omega
  have htemp := htemp (shaping_weight * c.error + 512)
  have hzero := hadd _ 0 htemp (by decide)
  rw [Int32.add_zero] at hzero
  unfold EncoderChannel.applyWeight
  dsimp only
  split_ifs
  · exact hadd _ 1 htemp (by decide)
  · rw [Int32.sub_eq_add_neg]
    exact hadd _ (-1) htemp (by decide)
  · exact hzero
  · exact hzero

/-- With static noise shaping and with `error` below a bound, neither the sample that is
encoded nor the error behind it wraps around. -/
theorem static_spec (c : EncoderChannel) (sample : Int16)
    (herror : |c.error.toInt| + 65536 ≤ maxSample) (nibble : UInt8) :
    let shaped := c.shape NOISE_SHAPING_STATIC sample.toInt32
    Moderate shaped.2 ∧
      (shaped.1.follow NOISE_SHAPING_STATIC nibble).error.toInt =
        c.error.toInt + ((c.toChannel.next nibble).pcmdata - sample.toInt) := by
  intro shaped
  have hlow : -32768 ≤ sample.toInt := sample.le_toInt
  have hhigh : sample.toInt ≤ 32767 := sample.toInt_le
  have hpcm := (c.toChannel.next nibble).pcmdata_range
  have herror' : -(maxSample - 65536) ≤ c.error.toInt ∧ c.error.toInt ≤ maxSample - 65536 :=
    abs_le.mp (by omega)
  unfold maxSample at herror'
  have hsample : (sample.toInt32 - c.error).toInt = sample.toInt - c.error.toInt := by
    rw [toInt_sub_of_range, Int16.toInt_toInt32]
    rw [Int16.toInt_toInt32, Fits]
    omega
  have hneg : (-(sample.toInt32 - c.error)).toInt = -(sample.toInt - c.error.toInt) := by
    rw [toInt_neg_of_range, hsample]
    rw [hsample, Fits]
    omega
  constructor
  · change Moderate (sample.toInt32 - c.error)
    rw [Moderate, hsample, maxSample]
    omega
  · change (-(sample.toInt32 - c.error) +
      Int32.ofInt (c.toChannel.next nibble).pcmdata).toInt = _
    rw [toInt_add_of_range, hneg, Channel.toInt_ofInt_pcmdata]
    · omega
    · rw [hneg, Channel.toInt_ofInt_pcmdata, Fits]
      omega

/-- A context for which the arithmetic of a block is exact, with `total` samples behind the
first one of each channel: the sums of the search have no more terms than a `double`
holds, and with static noise shaping the errors, which grow by at most 65536 with each
sample, are moderate. -/
structure Context.Exact (p : Context) (total : Nat) : Prop where
  depth : min total p.lookahead.toNat ≤ 0x80000
  error : p.noiseShaping = NOISE_SHAPING_STATIC →
    ∀ c ∈ p.channels, |c.error.toInt| + 65536 * total ≤ maxSample

section Moderate

variable {p : Context} {inbuf : List Int16} {total : Nat}

/-- With static noise shaping the error that a channel carries changes by the error of
the encoded sample. -/
theorem stateAfter_static (hshape : p.noiseShaping = NOISE_SHAPING_STATIC) (c : EncoderChannel)
    (ch k : Nat) (herror : |(stateAfter p inbuf total c ch k).error.toInt| + 65536 ≤ maxSample) :
    (stateAfter p inbuf total c ch (k + 1)).error.toInt =
      (stateAfter p inbuf total c ch k).error.toInt +
        ((stateAfter p inbuf total c ch (k + 1)).pcmdata -
          (inbuf[(k + 1) * p.numChannels + ch]?.getD 0).toInt) := by
  have hstep := (static_spec (stateAfter p inbuf total c ch k)
    (inbuf[(k + 1) * p.numChannels + ch]?.getD 0) herror (codeAt p inbuf total c ch k)).2
  have hnext : (stateAfter p inbuf total c ch (k + 1)).pcmdata =
      ((stateAfter p inbuf total c ch k).toChannel.next (codeAt p inbuf total c ch k)).pcmdata :=
    congrArg Channel.pcmdata (stateAfter_succ_toChannel p inbuf total c ch k)
  rw [hnext, ← hstep, ← hshape]
  rfl

/-- The error grows by at most 65536 with each sample. -/
theorem abs_error_le (inbuf : List Int16) (hexact : p.Exact total)
    (hshape : p.noiseShaping = NOISE_SHAPING_STATIC) {c : EncoderChannel} (hc : c ∈ p.channels)
    (ch : Nat) {k : Nat} (hk : k ≤ total) :
    |(stateAfter p inbuf total c ch k).error.toInt| ≤ |c.error.toInt| + 65536 * k := by
  induction k with
  | zero => simp [stateAfter, EncoderChannel.startAt]
  | succ k ih =>
      have hle := ih (by omega)
      have hbound := hexact.error hshape c hc
      have hlow : -32768 ≤ (inbuf[(k + 1) * p.numChannels + ch]?.getD 0).toInt := Int16.le_toInt _
      have hhigh : (inbuf[(k + 1) * p.numChannels + ch]?.getD 0).toInt ≤ 32767 := Int16.toInt_le _
      have hpcm := (stateAfter p inbuf total c ch (k + 1)).pcmdata_range
      rw [stateAfter_static hshape c ch k (by omega)]
      rw [abs_le] at hle ⊢
      push_cast
      omega

/-- Every sample of a block is moderate. -/
theorem moderate_stateAfter (hexact : p.Exact total) {c : EncoderChannel} (hc : c ∈ p.channels)
    (ch : Nat) {k : Nat} (hk : k < total) :
    Moderate ((stateAfter p inbuf total c ch k).shape p.noiseShaping
      (inbuf[(k + 1) * p.numChannels + ch]?.getD 0).toInt32).2 := by
  by_cases hdynamic : p.noiseShaping = NOISE_SHAPING_DYNAMIC
  · rw [EncoderChannel.shape, if_pos hdynamic]
    exact moderate_applyWeight _ _ _
  · by_cases hstatic : p.noiseShaping = NOISE_SHAPING_STATIC
    · have hbound := hexact.error hstatic c hc
      have hle := abs_error_le inbuf hexact hstatic hc ch hk.le
      rw [hstatic]
      exact (static_spec _ _ (by omega) 0).1
    · rw [EncoderChannel.shape, if_neg hdynamic, if_neg hstatic]
      exact moderate_toInt32 _

end Moderate

/-! ## Codes in bytes -/

/-- Two codes in each byte, the earlier one in the low half. -/
def packed (code : Nat → UInt8) : Nat → Nat → List UInt8
  | _, 0 => []
  | k, count + 1 => (code k ||| code (k + 1) <<< 4) :: packed code (k + 2) count

@[simp]
theorem length_packed (code : Nat → UInt8) (k count : Nat) :
    (packed code k count).length = count := by
  induction count generalizing k with
  | zero => rfl
  | succ count ih => simp [packed, ih]

/-- Only the low four bits of a code matter. -/
theorem Channel.next_congr (c : Channel) {b code : UInt8} (h : b &&& 15 = code) :
    c.next b = c.next code := by
  have hbit : ∀ mask : UInt8, mask &&& 15 = mask → code &&& mask = b &&& mask := by
    intro mask hmask
    rw [← h, UInt8.and_assoc, UInt8.and_comm 15, hmask]
  have hdelta : c.delta b = c.delta code := by
    simp only [delta, hbit 1 rfl, hbit 2 rfl, hbit 4 rfl, hbit 8 rfl]
  simp only [next, hdelta, hbit 7 rfl]

/-- The low code of a byte. -/
theorem low_packed {low high : UInt8} (hlow : low ∈ nibbles) (hhigh : high ∈ nibbles) :
    (low ||| high <<< 4) &&& 15 = low := by
  have hall : ∀ low ∈ nibbles, ∀ high ∈ nibbles, (low ||| high <<< 4) &&& 15 = low := by
    decide +kernel
  exact hall low hlow high hhigh

/-- The high code of a byte. -/
theorem high_packed {low high : UInt8} (hlow : low ∈ nibbles) (hhigh : high ∈ nibbles) :
    ((low ||| high <<< 4) >>> 4) &&& 15 = high := by
  have hall : ∀ low ∈ nibbles, ∀ high ∈ nibbles,
      ((low ||| high <<< 4) >>> 4) &&& 15 = high := by decide +kernel
  exact hall low hlow high hhigh

/-- The samples of the states `k + 1` to `k + count`. -/
def samplesBehind (state : Nat → Channel) (k count : Nat) : List Int16 :=
  (List.range' (k + 1) count).map fun j => (state j).sample

/-- The decoder goes through every run that follows its steps. -/
theorem decodeBytes_packed {state : Nat → Channel} {code : Nat → UInt8}
    (hcode : ∀ k, code k ∈ nibbles) (hstate : ∀ k, state (k + 1) = (state k).next (code k))
    (k count : Nat) :
    decodeBytes (state k) (packed code k count) =
      (samplesBehind state k (2 * count), state (k + 2 * count)) := by
  induction count generalizing k with
  | zero => rfl
  | succ count ih =>
      have hlow : (state k).next (code k ||| code (k + 1) <<< 4) = state (k + 1) := by
        rw [hstate, Channel.next_congr _ (low_packed (hcode k) (hcode (k + 1)))]
      have hhigh : (state (k + 1)).next ((code k ||| code (k + 1) <<< 4) >>> 4) =
          state (k + 2) := by
        rw [hstate (k + 1), Channel.next_congr _ (high_packed (hcode k) (hcode (k + 1)))]
      have hcount : 2 * (count + 1) = 2 * count + 1 + 1 := by omega
      have hlast : k + 2 + 2 * count = k + (2 * count + 1 + 1) := by omega
      simp only [packed, decodeBytes, hlow, hhigh, ih, hcount, hlast, samplesBehind,
        List.range'_succ, List.map_cons]

/-! ## The encoder's chunks -/

section Encoder

variable {p : Context} {inbuf : List Int16} {total : Nat}

/-- The channels with their numbers. -/
abbrev Numbered := List (EncoderChannel × Nat)

/-- The states of the channels behind their first `k` samples. -/
def statesAfter (p : Context) (inbuf : List Int16) (total : Nat) (xs : Numbered) (k : Nat) :
    List EncoderChannel :=
  xs.map fun (c, ch) => stateAfter p inbuf total c ch k

/-- The bytes of a chunk that begins behind the first `k` samples. -/
def chunkBytes (p : Context) (inbuf : List Int16) (total : Nat) (xs : Numbered) (k : Nat) :
    List UInt8 :=
  xs.flatMap fun (c, ch) => packed (codeAt p inbuf total c ch) k 4

/-- The bytes of a number of chunks. -/
def chunksBytes (p : Context) (inbuf : List Int16) (total : Nat) (xs : Numbered) :
    Nat → Nat → List UInt8
  | 0, _ => []
  | chunks + 1, k =>
      chunkBytes p inbuf total xs k ++ chunksBytes p inbuf total xs chunks (k + 8)

/-- A chunk has four bytes for each channel. -/
theorem length_chunkBytes (xs : Numbered) (k : Nat) :
    (chunkBytes p inbuf total xs k).length = 4 * xs.length := by
  simp [chunkBytes, List.length_flatMap, Nat.mul_comm]

/-- The bytes of several chunks. -/
theorem length_chunksBytes (xs : Numbered) (chunks k : Nat) :
    (chunksBytes p inbuf total xs chunks k).length = chunks * (4 * xs.length) := by
  induction chunks generalizing k with
  | zero => simp [chunksBytes]
  | succ chunks ih =>
      rw [chunksBytes, List.length_append, length_chunkBytes, ih, Nat.add_one_mul chunks,
        Nat.add_comm]

variable (hlook : 0 ≤ p.lookahead) (hexact : p.Exact total)
variable (hlen : (total + 1) * p.numChannels ≤ inbuf.length)
include hlook hexact hlen

/-- Inside the block every sample is encoded. -/
theorem encodeSample_stateAfter {c : EncoderChannel} (hc : c ∈ p.channels) {ch : Nat} (k : Nat)
    (hch : ch < p.numChannels) (hk : k < total) :
    encodeSample p inbuf (stateAfter p inbuf total c ch k) ((k + 1) * p.numChannels + ch)
        (total - k) =
      some (codeAt p inbuf total c ch k, stateAfter p inbuf total c ch (k + 1)) := by
  have hlast : (k + 1) * p.numChannels + ch + (total - k - 1) * p.numChannels < inbuf.length := by
    have hsum : (k + 1) * p.numChannels + (total - k - 1) * p.numChannels =
        total * p.numChannels := by
      rw [← Nat.add_mul]
      congr 1
      omega
    rw [Nat.add_one_mul] at hlen
    omega
  rw [encodeSample_eq hlook _ (by omega) (moderate_stateAfter hexact hc ch hk) hlast]
  rfl

/-- The loop over the bytes of a channel packs the codes in order. -/
theorem encodeBytes_eq {c : EncoderChannel} (hc : c ∈ p.channels) {ch : Nat}
    (hch : ch < p.numChannels) (chunks count k : Nat) (hk : total = k + (chunks * 8 + count * 2)) :
    encodeBytes p inbuf chunks count (stateAfter p inbuf total c ch k)
        ((k + 1) * p.numChannels + ch) =
      some (packed (codeAt p inbuf total c ch) k count,
        stateAfter p inbuf total c ch (k + 2 * count)) := by
  induction count generalizing k with
  | zero => rfl
  | succ count ih =>
      have hlow := encodeSample_stateAfter hlook hexact hlen hc k hch (by omega)
      have hhigh := encodeSample_stateAfter hlook hexact hlen hc (k + 1) hch (by omega)
      have hrest := ih (k + 2) (by omega)
      have hplace : (k + 1) * p.numChannels + ch + p.numChannels =
          (k + 1 + 1) * p.numChannels + ch := by
        rw [Nat.add_one_mul (k + 1)]
        omega
      have hplace' : (k + 1 + 1) * p.numChannels + ch + p.numChannels =
          (k + 2 + 1) * p.numChannels + ch := by
        have hnext : k + 2 + 1 = k + 1 + 1 + 1 := rfl
        rw [hnext, Nat.add_one_mul (k + 1 + 1)]
        omega
      have hleft : chunks * 8 + count * 2 + 2 = total - k := by omega
      have hleft' : chunks * 8 + count * 2 + 1 = total - (k + 1) := by omega
      have hlast : k + 2 + 2 * count = k + 2 * (count + 1) := by omega
      simp only [encodeBytes, hleft, hleft', hplace, hplace', hlow, hhigh, hrest, hlast, packed,
        Option.bind_eq_bind, Option.bind_some]

/-- The loop over the channels writes one chunk. -/
theorem encodeChannels_eq {xs : List EncoderChannel} (hxs : ∀ x ∈ xs, x ∈ p.channels)
    (first chunks k : Nat) (hfirst : first + xs.length ≤ p.numChannels)
    (hk : total = k + (chunks * 8 + 8)) :
    encodeChannels p inbuf chunks (statesAfter p inbuf total (xs.zipIdx first) k)
        ((k + 1) * p.numChannels + first) =
      some (chunkBytes p inbuf total (xs.zipIdx first) k,
        statesAfter p inbuf total (xs.zipIdx first) (k + 8)) := by
  induction xs generalizing first with
  | nil => rfl
  | cons x xs ih =>
      rw [List.length_cons] at hfirst
      rw [List.forall_mem_cons] at hxs
      have hbytes := encodeBytes_eq hlook hexact hlen hxs.1 (by omega : first < p.numChannels)
        chunks 4 k hk
      have hrest := ih hxs.2 (first + 1) (by omega)
      simp only [statesAfter, chunkBytes, List.zipIdx_cons, List.map_cons, List.flatMap_cons,
        encodeChannels, hbytes, Option.bind_eq_bind, Option.bind_some] at hrest ⊢
      rw [Nat.add_assoc, hrest]
      rfl

/-- Chunk after chunk, the packed codes of the channels in turns. -/
theorem encodeChunks_eq (chunks k : Nat) (hk : total = k + chunks * 8) :
    encodeChunks p inbuf chunks (statesAfter p inbuf total p.channels.zipIdx k)
        ((k + 1) * p.numChannels) =
      some (chunksBytes p inbuf total p.channels.zipIdx chunks k,
        statesAfter p inbuf total p.channels.zipIdx total) := by
  induction chunks generalizing k with
  | zero =>
      have htotal : k = total := by omega
      rw [htotal]
      rfl
  | succ chunks ih =>
      have hall : 0 + p.channels.length ≤ p.numChannels := (Nat.zero_add _).le
      have hchunk := encodeChannels_eq hlook hexact hlen (fun _ hx => hx) 0 chunks k hall
        (by omega)
      have hrest := ih (k + 8) (by omega)
      have hplace : (k + 1) * p.numChannels + 8 * p.numChannels =
          (k + 8 + 1) * p.numChannels := by
        rw [← Nat.add_mul]
      rw [Nat.add_zero] at hchunk
      simp only [encodeChunks, hchunk, hplace, hrest, chunksBytes, Option.bind_eq_bind,
        Option.bind_some]

end Encoder

/-! ## Headers -/

/-- A byte keeps a number modulo 256. -/
theorem toNat_ofInt (n : Int) : (UInt8.ofInt n).toNat = (n % 256).toNat := by
  simp [UInt8.ofInt]
  omega

/-- The two bytes of a header give back the sample. -/
theorem headerSample_headerBytes (sample : Int16) :
    headerSample (UInt8.ofInt sample.toInt) (UInt8.ofInt (sample.toInt >>> (8 : Nat))) =
      sample := by
  have hvalue : sample.toInt = (sample.toUInt16.toNat : Int).bmod 65536 := by
    rw [← Int16.toInt_toBitVec, BitVec.toInt_eq_toNat_bmod]
    rfl
  have hlt := sample.toUInt16.toNat_lt
  have hlow : (UInt8.ofInt sample.toInt).toNat = sample.toUInt16.toNat % 256 := by
    rw [toNat_ofInt, hvalue, Int.bmod_def]
    split_ifs <;> omega
  have hhigh : (UInt8.ofInt (sample.toInt >>> (8 : Nat))).toNat =
      sample.toUInt16.toNat / 256 := by
    rw [toNat_ofInt, hvalue, Int.shiftRight_eq_div_pow, Int.bmod_def]
    split_ifs <;> omega
  have hword : (UInt8.ofInt sample.toInt).toUInt16 |||
      (UInt8.ofInt (sample.toInt >>> (8 : Nat))).toUInt16 <<< 8 = sample.toUInt16 := by
    rw [← UInt16.toNat_inj]
    simp only [UInt16.toNat_or, UInt16.toNat_shiftLeft, UInt8.toNat_toUInt16, hlow, hhigh]
    have hshift : (sample.toUInt16.toNat / 256) <<< (UInt16.toNat 8 % 16) % 2 ^ 16 =
        (sample.toUInt16.toNat / 256) <<< 8 := by
      have height : UInt16.toNat 8 % 16 = 8 := rfl
      rw [height, Nat.shiftLeft_eq]
      exact Nat.mod_eq_of_lt (by omega)
    rw [Nat.or_comm, hshift, ← Nat.shiftLeft_add_eq_or_of_lt (Nat.mod_lt _ (by decide)),
      Nat.shiftLeft_eq]
    omega
  rw [headerSample, hword, Int16.toInt16_toUInt16]

/-- An index goes through a header unchanged. -/
theorem toInt_ofInt_index {index : Int} (h : 0 ≤ index ∧ index ≤ 88) :
    (UInt8.ofInt index).toInt8.toInt = index := by
  have hnat := toNat_ofInt index
  rw [← Int8.toInt_toBitVec, BitVec.toInt_eq_toNat_bmod, Int.bmod_def]
  simp
  omega

/-- The header of a channel is read as the state that it starts from. -/
theorem readHeader_headerBytes (c : EncoderChannel) (sample : Int16) :
    readHeader (UInt8.ofInt sample.toInt) (UInt8.ofInt (sample.toInt >>> (8 : Nat)))
      (UInt8.ofInt c.index) 0 = some (c.startAt sample).toChannel := by
  have hrange := c.index_range
  have hindex := toInt_ofInt_index hrange
  have hgood : ¬ ((UInt8.ofInt c.index).toInt8.toInt < 0 ∨
      (UInt8.ofInt c.index).toInt8.toInt > 88 ∨ (0 : UInt8) ≠ 0) := by
    rw [hindex]
    simp
    omega
  simp only [readHeader, headerSample_headerBytes, EncoderChannel.startAt]
  rw [dif_neg hgood]
  simp only [hindex]

/-- The headers of the channels. -/
def headersBytes (inbuf : List Int16) (xs : Numbered) : List UInt8 :=
  xs.flatMap fun (c, ch) => headerBytes (inbuf[ch]?.getD 0) c.index

/-- The headers carry the first samples and the indices. -/
theorem encodeHeaders_eq (p : Context) {inbuf : List Int16} (total : Nat)
    (xs : List EncoderChannel) {first : Nat} (hfirst : first + xs.length ≤ inbuf.length) :
    encodeHeaders inbuf xs first =
      some (headersBytes inbuf (xs.zipIdx first),
        statesAfter p inbuf total (xs.zipIdx first) 0) := by
  induction xs generalizing first with
  | nil => rfl
  | cons x xs ih =>
      rw [List.length_cons] at hfirst
      have hread : first < inbuf.length := by omega
      rw [encodeHeaders, List.getElem?_eq_getElem hread, ih (by omega)]
      simp [headersBytes, statesAfter, stateAfter, hread]

/-- A header has four bytes. -/
theorem length_headersBytes (inbuf : List Int16) (xs : Numbered) :
    (headersBytes inbuf xs).length = 4 * xs.length := by
  simp [headersBytes, headerBytes, List.length_flatMap, Nat.mul_comm]

/-- A channel that starts at a sample predicts it. -/
theorem startAt_sample (c : EncoderChannel) (sample : Int16) :
    (c.startAt sample).toChannel.sample = sample :=
  Int16.ofInt_toInt sample

/-! ## The decoder's chunks -/

section Decoder

variable (p : Context) (inbuf : List Int16) (total : Nat)

/-- The decoder's state of a channel. -/
def decoderState (x : EncoderChannel × Nat) (k : Nat) : Channel :=
  (stateAfter p inbuf total x.1 x.2 k).toChannel

/-- The decoder takes one code after the other. -/
theorem decoderState_succ (x : EncoderChannel × Nat) (k : Nat) :
    decoderState p inbuf total x (k + 1) =
      (decoderState p inbuf total x k).next (codeAt p inbuf total x.1 x.2 k) :=
  stateAfter_succ_toChannel p inbuf total x.1 x.2 k

/-- The headers are read as the states that the channels start from. -/
theorem readHeaders_eq (xs : List EncoderChannel) (first : Nat) (rest : List UInt8) :
    readHeaders xs.length first (headersBytes inbuf (xs.zipIdx first) ++ rest) =
      ((xs.zipIdx first).map fun x => (x.2, (decoderState p inbuf total x 0).sample),
        some ((xs.zipIdx first).map fun x => decoderState p inbuf total x 0, rest)) := by
  induction xs generalizing first with
  | nil => rfl
  | cons x xs ih =>
      have hheader := readHeader_headerBytes x (inbuf[first]?.getD 0)
      have hsample := headerSample_headerBytes (inbuf[first]?.getD 0)
      have hfirst : (decoderState p inbuf total (x, first) 0).sample = inbuf[first]?.getD 0 :=
        startAt_sample x _
      simp only [List.length_cons, List.zipIdx_cons, List.map_cons, headersBytes,
        List.flatMap_cons, headerBytes, List.cons_append, List.nil_append, readHeaders, hheader,
        hsample, hfirst] at ih ⊢
      rw [ih]
      rfl

/-- The stores of a number of chunks. -/
def chunksStores (xs : Numbered) : Nat → Nat → List (Nat × Int16)
  | 0, _ => []
  | chunks + 1, k =>
      (xs.flatMap fun x => placed p.numChannels ((k + 1) * p.numChannels + x.2)
          (samplesBehind (decoderState p inbuf total x) k 8)) ++
        chunksStores xs chunks (k + 8)

/-- The decoder reads back the codes of one chunk. -/
theorem decodeChannelsAt_eq (xs : List EncoderChannel) (first k : Nat) (rest : List UInt8) :
    decodeChannelsAt p.numChannels
        ((xs.zipIdx first).map fun x => decoderState p inbuf total x k)
        ((k + 1) * p.numChannels + first)
        (chunkBytes p inbuf total (xs.zipIdx first) k ++ rest) =
      ((xs.zipIdx first).flatMap fun x => placed p.numChannels ((k + 1) * p.numChannels + x.2)
          (samplesBehind (decoderState p inbuf total x) k 8),
        (xs.zipIdx first).map fun x => decoderState p inbuf total x (k + 8)) := by
  induction xs generalizing first with
  | nil => rfl
  | cons x xs ih =>
      have hbytes := decodeBytes_packed (codeAt_mem p inbuf total x first)
        (decoderState_succ p inbuf total (x, first)) k 4
      have hrest := ih (first + 1)
      have htake : ((packed (codeAt p inbuf total x first) k 4) ++
          (chunkBytes p inbuf total (xs.zipIdx (first + 1)) k ++ rest)).take 4 =
            packed (codeAt p inbuf total x first) k 4 := by
        simp
      have hdrop : ((packed (codeAt p inbuf total x first) k 4) ++
          (chunkBytes p inbuf total (xs.zipIdx (first + 1)) k ++ rest)).drop 4 =
            chunkBytes p inbuf total (xs.zipIdx (first + 1)) k ++ rest := by
        simp
      have hbegin : chunkBytes p inbuf total ((x, first) :: xs.zipIdx (first + 1)) k ++ rest =
          packed (codeAt p inbuf total x first) k 4 ++
            (chunkBytes p inbuf total (xs.zipIdx (first + 1)) k ++ rest) := by
        simp [chunkBytes]
      rw [List.zipIdx_cons, List.map_cons, List.map_cons, List.flatMap_cons, hbegin]
      simp only [decodeChannelsAt, htake, hdrop, decodeBytesAt_eq, hbytes, Nat.add_assoc, hrest]

/-- The decoder reads back the codes of all chunks. -/
theorem decodeChunksAt_eq {xs : List EncoderChannel} (hxs : xs.length = p.numChannels)
    (chunks k : Nat) :
    decodeChunksAt p.numChannels chunks
        (xs.zipIdx.map fun x => decoderState p inbuf total x k) ((k + 1) * p.numChannels)
        (chunksBytes p inbuf total xs.zipIdx chunks k) =
      chunksStores p inbuf total xs.zipIdx chunks k := by
  induction chunks generalizing k with
  | zero => rfl
  | succ chunks ih =>
      have hchunk := decodeChannelsAt_eq p inbuf total xs 0 k
        (chunksBytes p inbuf total xs.zipIdx chunks (k + 8))
      have hdrop : (chunkBytes p inbuf total xs.zipIdx k ++
          chunksBytes p inbuf total xs.zipIdx chunks (k + 8)).drop (4 * p.numChannels) =
            chunksBytes p inbuf total xs.zipIdx chunks (k + 8) := by
        apply List.drop_left'
        rw [length_chunkBytes, List.length_zipIdx, hxs]
      have hplace : (k + 1) * p.numChannels + p.numChannels + p.numChannels * 7 =
          (k + 8 + 1) * p.numChannels := by
        rw [Nat.add_one_mul, Nat.add_one_mul, Nat.add_mul]
        omega
      rw [Nat.add_zero] at hchunk
      simp only [decodeChunksAt, chunksBytes, chunksStores, hchunk, hdrop, hplace, ih]

/-- A chunk stores eight samples for each channel. -/
theorem length_chunksStores (xs : Numbered) (chunks k : Nat) :
    (chunksStores p inbuf total xs chunks k).length = chunks * (8 * xs.length) := by
  induction chunks generalizing k with
  | zero => simp [chunksStores]
  | succ chunks ih =>
      have hchunk : (xs.flatMap fun x => placed p.numChannels ((k + 1) * p.numChannels + x.2)
          (samplesBehind (decoderState p inbuf total x) k 8)).length = 8 * xs.length := by
        simp [List.length_flatMap, placed, samplesBehind, Nat.mul_comm]
      rw [chunksStores, List.length_append, ih, hchunk, Nat.add_one_mul chunks, Nat.add_comm]

/-- Where a placed sample stands. -/
theorem mem_placed (channels outbuf : Nat) {samples : List Int16} {j : Nat}
    (h : j < samples.length) :
    (outbuf + j * channels, samples[j]) ∈ placed channels outbuf samples :=
  List.mem_mapIdx.mpr ⟨j, h, rfl⟩

/-- Every sample behind the first `k` ones is stored at its place. -/
theorem mem_chunksStores {xs : Numbered} {x : EncoderChannel × Nat} (hx : x ∈ xs)
    {chunks k j : Nat} (hkj : k < j) (hj : j ≤ k + 8 * chunks) :
    (j * p.numChannels + x.2, (decoderState p inbuf total x j).sample) ∈
      chunksStores p inbuf total xs chunks k := by
  induction chunks generalizing k with
  | zero => omega
  | succ chunks ih =>
      rw [chunksStores, List.mem_append]
      by_cases hfirst : j ≤ k + 8
      · left
        refine List.mem_flatMap.mpr ⟨x, hx, ?_⟩
        have hlt : j - (k + 1) < (samplesBehind (decoderState p inbuf total x) k 8).length := by
          simp [samplesBehind]
          omega
        have hmem := mem_placed p.numChannels ((k + 1) * p.numChannels + x.2) hlt
        have hplace : (k + 1) * p.numChannels + x.2 + (j - (k + 1)) * p.numChannels =
            j * p.numChannels + x.2 := by
          rw [Nat.add_right_comm, ← Nat.add_mul]
          congr 2
          omega
        have hindex : k + 1 + (j - (k + 1)) = j := by omega
        simpa [hplace, samplesBehind, hindex] using hmem
      · right
        exact ih (by omega) (by omega)

end Decoder

/-! ## What a block decodes to -/

/-- The samples of a channel that are coded behind its first one. -/
def codedSamples (inbufcount : Nat) : Nat :=
  8 * ((inbufcount - 1) / 8)

section Block

variable (p : Context) (inbuf : List Int16) (n : Nat)

/-- The channels behind a block. -/
def channelsBehind : List EncoderChannel :=
  statesAfter p inbuf (codedSamples n) p.channels.zipIdx (codedSamples n)

/-- The bytes of a block. -/
def blockBytes : List UInt8 :=
  headersBytes inbuf p.channels.zipIdx ++
    chunksBytes p inbuf (codedSamples n) p.channels.zipIdx ((n - 1) / 8) 0

/-- The stores of the decoder for a block. -/
def blockStores : List (Nat × Int16) :=
  (p.channels.zipIdx.map fun x =>
      (x.2, (decoderState p inbuf (codedSamples n) x 0).sample)) ++
    chunksStores p inbuf (codedSamples n) p.channels.zipIdx ((n - 1) / 8) 0

/-- The length of a block. -/
theorem length_blockBytes : (blockBytes p inbuf n).length =
    4 * p.numChannels + (n - 1) / 8 * 4 * p.numChannels := by
  rw [blockBytes, List.length_append, length_headersBytes, length_chunksBytes, List.length_zipIdx,
    Nat.mul_assoc]
  rfl

variable {p}

/-- The encoder reads inside the buffer only. -/
theorem adpcmEncodeBlock_eq (hlook : 0 ≤ p.lookahead) (hexact : p.Exact (codedSamples n))
    (hn : 0 < n) (hlen : n * p.numChannels ≤ inbuf.length) :
    adpcmEncodeBlock p inbuf n =
      some ⟨blockBytes p inbuf n, (blockBytes p inbuf n).length, channelsBehind p inbuf n⟩ := by
  have hfirst : 0 + p.channels.length ≤ inbuf.length := by
    have hle : 1 * p.numChannels ≤ n * p.numChannels := Nat.mul_le_mul_right _ hn
    simp only [Context.numChannels] at hle hlen
    omega
  have htotal : (codedSamples n + 1) * p.numChannels ≤ inbuf.length := by
    refine Nat.le_trans (Nat.mul_le_mul_right _ ?_) hlen
    unfold codedSamples
    omega
  have hheaders := encodeHeaders_eq p (codedSamples n) p.channels hfirst
  have hchunks := encodeChunks_eq hlook hexact htotal ((n - 1) / 8) 0
    (by unfold codedSamples; omega)
  rw [Nat.zero_add, Nat.one_mul] at hchunks
  rw [adpcmEncodeBlock, if_neg (by omega), length_blockBytes, hheaders]
  simp only [Option.bind_eq_bind, Option.bind_some, hchunks]
  rfl

/-- Decoding a block stores the samples of the decoder states and returns their
number. -/
theorem adpcmDecodeChannels_blockBytes (hch : 0 < p.numChannels) :
    adpcmDecodeChannels (blockBytes p inbuf n) p.numChannels =
      ⟨blockStores p inbuf n, toCInt (1 + ((n - 1) / 8 : Nat) * 8)⟩ := by
  have hsize : ¬ (blockBytes p inbuf n).length < p.numChannels * 4 := by
    rw [length_blockBytes]
    omega
  have hheaders := readHeaders_eq p inbuf (codedSamples n) p.channels 0
    (chunksBytes p inbuf (codedSamples n) p.channels.zipIdx ((n - 1) / 8) 0)
  have hchunks : (chunksBytes p inbuf (codedSamples n) p.channels.zipIdx ((n - 1) / 8) 0).length /
      (p.numChannels * 4) = (n - 1) / 8 := by
    have hpos : 0 < p.numChannels * 4 := by omega
    rw [length_chunksBytes, List.length_zipIdx, Nat.mul_comm 4]
    exact Nat.mul_div_cancel _ hpos
  have hchannels : p.channels.length = p.numChannels := rfl
  have hstores := decodeChunksAt_eq p inbuf (codedSamples n) hchannels ((n - 1) / 8) 0
  rw [Nat.zero_add, Nat.one_mul] at hstores
  rw [adpcmDecodeChannels, if_neg hsize]
  simp only [blockBytes, Context.numChannels] at hheaders hchunks hstores ⊢
  simp only [hheaders, hchunks, hstores, blockStores]

/-- Where the sample of a channel stands in the output. -/
theorem mem_blockStores {x : EncoderChannel × Nat} (hx : x ∈ p.channels.zipIdx) {k : Nat}
    (hk : k ≤ codedSamples n) :
    (k * p.numChannels + x.2, (decoderState p inbuf (codedSamples n) x k).sample) ∈
      blockStores p inbuf n := by
  rw [blockStores, List.mem_append]
  by_cases hzero : k = 0
  · left
    rw [hzero, Nat.zero_mul, Nat.zero_add]
    exact List.mem_map.mpr ⟨x, hx, rfl⟩
  · right
    unfold codedSamples at hk
    exact mem_chunksStores p inbuf _ hx (by omega) (by omega)

/-- Every place of the output is stored to once. -/
theorem blockStores_perm (hch : 0 < p.numChannels) :
    ((blockStores p inbuf n).map Prod.fst).Perm
      (List.range ((1 + codedSamples n) * p.numChannels)) := by
  have hsub : List.range ((1 + codedSamples n) * p.numChannels) ⊆
      (blockStores p inbuf n).map Prod.fst := by
    intro place hplace
    rw [List.mem_range] at hplace
    have hmod : place % p.numChannels < p.numChannels := Nat.mod_lt _ hch
    have hk : place / p.numChannels ≤ codedSamples n := by
      have hlt := Nat.div_lt_of_lt_mul (Nat.mul_comm _ p.numChannels ▸ hplace)
      omega
    have hx : (p.channels.get ⟨place % p.numChannels, hmod⟩, place % p.numChannels) ∈
        p.channels.zipIdx :=
      List.mem_zipIdx_iff_getElem?.mpr (List.getElem?_eq_getElem hmod)
    have hmem := List.mem_map_of_mem (f := Prod.fst) (mem_blockStores inbuf n hx hk)
    rwa [Nat.mul_comm, Nat.div_add_mod] at hmem
  have hlength : ((blockStores p inbuf n).map Prod.fst).length =
      (1 + codedSamples n) * p.numChannels := by
    rw [List.length_map, blockStores, List.length_append, List.length_map, length_chunksStores,
      List.length_zipIdx, codedSamples, Nat.add_mul, Nat.one_mul, Nat.mul_assoc, Nat.mul_left_comm]
    rfl
  have hsubperm := List.subperm_of_subset List.nodup_range hsub
  exact (hsubperm.perm_of_length_le (by rw [hlength, List.length_range])).symm

end Block

/-- For every context for which the arithmetic of the block is exact, every mode of noise
shaping and every buffer that holds `n` samples of each channel: the encoder reads inside
the buffer only and writes as many bytes as it says; the decoder stores one sample at each
place of its output, the first sample of each channel as it is and the others as the
encoder has tracked them; and the encoder is left with the decoder's last states. -/
theorem decode_encode {p : Context} (hch : 0 < p.numChannels) (hlook : 0 ≤ p.lookahead)
    {inbuf : List Int16} {n : Nat} (hexact : p.Exact (codedSamples n)) (hn : 0 < n)
    (hint : n < 2 ^ 31) (hlen : n * p.numChannels ≤ inbuf.length) :
    ∃ e, adpcmEncodeBlock p inbuf n = some e ∧
      e.outbuf.length = e.outbufsize ∧
      e.outbufsize = 4 * p.numChannels + (n - 1) / 8 * 4 * p.numChannels ∧
      e.channels = channelsBehind p inbuf n ∧
      (adpcmDecodeChannels e.outbuf p.numChannels).samples = (1 + codedSamples n : Nat) ∧
      ((adpcmDecodeChannels e.outbuf p.numChannels).stores.map Prod.fst).Perm
        (List.range ((1 + codedSamples n) * p.numChannels)) ∧
      (∀ x ∈ p.channels.zipIdx, (x.2, inbuf[x.2]?.getD 0) ∈
        (adpcmDecodeChannels e.outbuf p.numChannels).stores) ∧
      ∀ x ∈ p.channels.zipIdx, ∀ k ≤ codedSamples n,
        (k * p.numChannels + x.2,
            (stateAfter p inbuf (codedSamples n) x.1 x.2 k).toChannel.sample) ∈
          (adpcmDecodeChannels e.outbuf p.numChannels).stores := by
  have hdecode := adpcmDecodeChannels_blockBytes inbuf n hch
  refine ⟨_, adpcmEncodeBlock_eq inbuf n hlook hexact hn hlen, rfl, length_blockBytes p inbuf n,
    rfl, ?_⟩
  rw [hdecode]
  refine ⟨?_, blockStores_perm inbuf n hch, ?_, fun x hx k hk => mem_blockStores inbuf n hx hk⟩
  · simp only [codedSamples, toCInt, Int.bmod_def]
    omega
  · intro x hx
    have hfirst := mem_blockStores inbuf n hx (Nat.zero_le _)
    rw [Nat.zero_mul, Nat.zero_add] at hfirst
    have hsample : (decoderState p inbuf (codedSamples n) x 0).sample = inbuf[x.2]?.getD 0 :=
      startAt_sample x.1 _
    rwa [hsample] at hfirst

/-- A block of two channels with static noise shaping and one sample of lookahead. -/
theorem decode_encode_nine :
    let p := adpcmCreateContext 1 NOISE_SHAPING_STATIC [7, 1000]
    let inbuf : List Int16 := List.replicate 18 500
    ∃ e, adpcmEncodeBlock p inbuf 9 = some e ∧
      e.outbuf.length = e.outbufsize ∧ e.outbufsize = 16 ∧
      e.channels = channelsBehind p inbuf 9 ∧
      (adpcmDecodeChannels e.outbuf 2).samples = 9 ∧
      ((adpcmDecodeChannels e.outbuf 2).stores.map Prod.fst).Perm (List.range 18) ∧
      (∀ x ∈ p.channels.zipIdx, (x.2, (500 : Int16)) ∈
        (adpcmDecodeChannels e.outbuf 2).stores) ∧
      ∀ x ∈ p.channels.zipIdx, ∀ k ≤ 8,
        (k * 2 + x.2, (stateAfter p inbuf 8 x.1 x.2 k).toChannel.sample) ∈
          (adpcmDecodeChannels e.outbuf 2).stores := by
  intro p inbuf
  have hexact : p.Exact (codedSamples 9) := ⟨by decide, fun _ => by decide⟩
  have hlen : 9 * p.numChannels ≤ inbuf.length := by decide
  obtain ⟨e, he, hlength, hsize, hchannels, hsamples, hperm, hfirst, hstores⟩ :=
    decode_encode (p := p) (by decide) (by decide) hexact (by decide) (by decide) hlen
  refine ⟨e, he, hlength, hsize, hchannels, hsamples, hperm, fun x hx => ?_, hstores⟩
  have hx' : x.2 = 0 ∨ x.2 = 1 := by
    have hlt := List.snd_lt_of_mem_zipIdx hx
    change x.2 < 2 + 0 at hlt
    omega
  have hvalue : inbuf[x.2]?.getD 0 = 500 := by
    rcases hx' with hx' | hx' <;> rw [hx'] <;> rfl
  have hmem := hfirst x hx
  rwa [hvalue] at hmem

end Adpcm
end Ls2kMorse
