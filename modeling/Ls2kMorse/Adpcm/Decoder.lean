import Mathlib.Algebra.Order.Ring.Nat
import Mathlib.Data.List.Basic
import Mathlib.Tactic.Common

/-!
# The ADPCM decoder

A block is a header of four bytes, the first sample and the step index, and two
samples of four bits in each further byte.  `adpcm_decode_block` decodes one block
of one channel; it takes whole chunks of four bytes, eight samples each, and gives
up with the count 0 on a malformed header.

Main results:

- Theorem `adpcmDecodeBlock_cases`: how many samples are written and how many are
  reported.
- Theorem `decodeChunks_append`: the state that is carried from chunk to chunk.
- Theorem `outbuf_append`: a block decoded together with what follows it.
-/

namespace Ls2kMorse
namespace Adpcm

/-! ## One sample -/

/-- `step_table`: the step sizes of the 89 indices. -/
def stepTable : Vector Int 89 :=
  #v[7, 8, 9, 10, 11, 12, 13, 14, 16, 17, 19, 21, 23, 25, 28, 31, 34, 37, 41, 45, 50, 55, 60, 66,
    73, 80, 88, 97, 107, 118, 130, 143, 157, 173, 190, 209, 230, 253, 279, 307, 337, 371, 408, 449,
    494, 544, 598, 658, 724, 796, 876, 963, 1060, 1166, 1282, 1411, 1552, 1707, 1878, 2066, 2272,
    2499, 2749, 3024, 3327, 3660, 4026, 4428, 4871, 5358, 5894, 6484, 7132, 7845, 8630, 9493, 10442,
    11487, 12635, 13899, 15289, 16818, 18500, 20350, 22385, 24623, 27086, 29794, 32767]

/-- `index_table`: how the three magnitude bits of a code move the index. -/
def indexTable : Vector Int 8 :=
  #v[-1, -1, -1, -1, 2, 4, 6, 8]

/-- The macro `CLIP`. -/
def CLIP (data min max : Int) : Int :=
  if data > max then max else if data < min then min else data

/-- A clipped value lies between the bounds. -/
theorem CLIP_range {data min max : Int} (h : min ≤ max) :
    min ≤ CLIP data min max ∧ CLIP data min max ≤ max := by
  unfold CLIP
  split_ifs <;> omega

/-- The state of one channel: the current PCM value and the index into the step
table, both as `CLIP` leaves them. -/
structure Channel where
  pcmdata : Int
  index : Int
  pcmdata_range : -32768 ≤ pcmdata ∧ pcmdata ≤ 32767
  index_range : 0 ≤ index ∧ index ≤ 88

/-- The entry of the step table at the index of the channel. -/
def Channel.step (c : Channel) : Int :=
  stepTable.get ⟨c.index.toNat, by have h := c.index_range; omega⟩

/-- What the four low bits of `code` add to the PCM value. -/
def Channel.delta (c : Channel) (code : UInt8) : Int :=
  let step := c.step
  let delta := step >>> (3 : Nat)
  let delta := if code &&& 1 ≠ 0 then delta + step >>> (2 : Nat) else delta
  let delta := if code &&& 2 ≠ 0 then delta + step >>> (1 : Nat) else delta
  let delta := if code &&& 4 ≠ 0 then delta + step else delta
  if code &&& 8 ≠ 0 then -delta else delta

/-- The magnitude bits of a code index the table. -/
theorem and_seven_lt (code : UInt8) : (code &&& 7).toNat < 8 := by
  rw [UInt8.toNat_and]
  exact Nat.lt_succ_of_le Nat.and_le_right

/-- The state behind the sample of the four low bits of `code`. -/
def Channel.next (c : Channel) (code : UInt8) : Channel where
  pcmdata := CLIP (c.pcmdata + c.delta code) (-32768) 32767
  index := CLIP (c.index + indexTable.get ⟨(code &&& 7).toNat, and_seven_lt code⟩) 0 88
  pcmdata_range := CLIP_range (by decide)
  index_range := CLIP_range (by decide)

/-- The sample that is stored for a state. -/
def Channel.sample (c : Channel) : Int16 :=
  Int16.ofInt c.pcmdata

/-! ## Chunks and blocks -/

/-- The samples of a run of bytes, the low half of each byte first, and the state
behind them. -/
def decodeBytes : Channel → List UInt8 → List Int16 × Channel
  | c, [] => ([], c)
  | c, b :: inbuf =>
      let low := c.next b
      let high := low.next (b >>> 4)
      let (outbuf, last) := decodeBytes high inbuf
      (low.sample :: high.sample :: outbuf, last)

/-- The `while` loop with a number of chunks left. -/
def decodeChunks : Nat → Channel → List UInt8 → List Int16
  | 0, _, _ => []
  | chunks + 1, c, inbuf =>
      let (outbuf, last) := decodeBytes c (inbuf.take 4)
      outbuf ++ decodeChunks chunks last (inbuf.drop 4)

/-- The conversion to a C `int`. -/
def toCInt (x : Int) : Int :=
  x.bmod (2 ^ 32)

/-- What a call stores from `outbuf[0]` on, and the count that it returns. -/
structure Decoded where
  outbuf : List Int16
  samples : Int

/-- The first sample, `(int16_t) (inbuf [0] | (inbuf [1] << 8))`. -/
def headerSample (b0 b1 : UInt8) : Int16 :=
  (b0.toUInt16 ||| b1.toUInt16 <<< 8).toInt16

/-- The state of a channel behind its header, none for a malformed one. -/
def readHeader (b0 b1 b2 b3 : UInt8) : Option Channel :=
  let pcmdata := headerSample b0 b1
  let index := b2.toInt8.toInt
  if h : index < 0 ∨ index > 88 ∨ b3 ≠ 0 then
    none
  else
    some ⟨pcmdata.toInt, index, ⟨pcmdata.le_toInt, pcmdata.toInt_le⟩, by omega⟩

/-- `adpcm_decode_block` for one channel on a block of fewer than `2^33` bytes. -/
def adpcmDecodeBlock : List UInt8 → Decoded
  | b0 :: b1 :: b2 :: b3 :: inbuf =>
      match readHeader b0 b1 b2 b3 with
      | none => ⟨[headerSample b0 b1], 0⟩
      | some c =>
          let chunks := inbuf.length / 4
          ⟨headerSample b0 b1 :: decodeChunks chunks c inbuf, toCInt (1 + chunks * 8)⟩
  | _ => ⟨[], 0⟩

/-- The samples of a block: as many as the count says. -/
def blockSamples (inbuf : List UInt8) : List Int16 :=
  (adpcmDecodeBlock inbuf).outbuf.take (adpcmDecodeBlock inbuf).samples.toNat

/-! ## How many samples there are -/

/-- Every byte gives two samples. -/
theorem length_decodeBytes (c : Channel) (inbuf : List UInt8) :
    (decodeBytes c inbuf).1.length = 2 * inbuf.length := by
  induction inbuf generalizing c with
  | nil => rfl
  | cons b inbuf ih =>
      simp only [decodeBytes, List.length_cons, ih]
      omega

/-- Every whole chunk gives eight samples. -/
theorem length_decodeChunks {chunks : Nat} (c : Channel) {inbuf : List UInt8}
    (h : 4 * chunks ≤ inbuf.length) : (decodeChunks chunks c inbuf).length = 8 * chunks := by
  induction chunks generalizing c inbuf with
  | zero => rfl
  | succ chunks ih =>
      have hrest : 4 * chunks ≤ (inbuf.drop 4).length := by
        rw [List.length_drop]
        omega
      simp only [decodeChunks, List.length_append, length_decodeBytes, List.length_take, ih _ hrest]
      omega

/-- A malformed header leaves one sample and the count 0; otherwise there are the
first sample and eight for each whole chunk. -/
theorem adpcmDecodeBlock_cases {inbuf : List UInt8} (h : 4 ≤ inbuf.length) :
    (adpcmDecodeBlock inbuf).outbuf.length = 1 ∧ (adpcmDecodeBlock inbuf).samples = 0 ∨
      (adpcmDecodeBlock inbuf).outbuf.length = 1 + 8 * ((inbuf.length - 4) / 4) ∧
        (adpcmDecodeBlock inbuf).samples = toCInt (1 + ((inbuf.length - 4) / 4 : Nat) * 8) := by
  match inbuf, h with
  | b0 :: b1 :: b2 :: b3 :: inbuf, _ =>
      have hchunks : 4 * (inbuf.length / 4) ≤ inbuf.length := Nat.mul_div_le inbuf.length 4
      cases hheader : readHeader b0 b1 b2 b3 with
      | none =>
          left
          simp [adpcmDecodeBlock, hheader]
      | some c =>
          right
          simp only [adpcmDecodeBlock, hheader, List.length_cons, length_decodeChunks c hchunks]
          exact ⟨Nat.add_comm _ _, rfl⟩

/-! ## What is carried from chunk to chunk -/

/-- The state behind a number of chunks. -/
def channelAfter : Nat → Channel → List UInt8 → Channel
  | 0, c, _ => c
  | chunks + 1, c, inbuf => channelAfter chunks (decodeBytes c (inbuf.take 4)).2 (inbuf.drop 4)

/-- Chunks that follow a run of chunks are decoded from the state behind it. -/
theorem decodeChunks_append {n : Nat} (m : Nat) (c : Channel) {xs : List UInt8}
    (ys : List UInt8) (hxs : xs.length = 4 * n) :
    decodeChunks (n + m) c (xs ++ ys) =
      decodeChunks n c xs ++ decodeChunks m (channelAfter n c xs) ys := by
  induction n generalizing c xs with
  | zero =>
      have hnil : xs = [] := List.length_eq_zero_iff.mp hxs
      simp [hnil, decodeChunks, channelAfter]
  | succ n ih =>
      have hle : 4 ≤ xs.length := by omega
      have hrest : (xs.drop 4).length = 4 * n := by
        rw [List.length_drop]
        omega
      rw [Nat.add_right_comm]
      simp only [decodeChunks, channelAfter, List.take_append_of_le_length hle,
        List.drop_append_of_le_length hle]
      rw [ih _ hrest, List.append_assoc]

/-- What follows a block with a good header is decoded from the state behind the
block, its own header included. -/
theorem outbuf_append {b0 b1 b2 b3 : UInt8} {c : Channel}
    (hheader : readHeader b0 b1 b2 b3 = some c) {n m : Nat} {xs ys : List UInt8}
    (hxs : xs.length = 4 * n) (hys : ys.length = 4 * m) :
    (adpcmDecodeBlock (b0 :: b1 :: b2 :: b3 :: (xs ++ ys))).outbuf =
      (adpcmDecodeBlock (b0 :: b1 :: b2 :: b3 :: xs)).outbuf ++
        decodeChunks m (channelAfter n c xs) ys := by
  have hn : xs.length / 4 = n := by omega
  have hnm : (xs ++ ys).length / 4 = n + m := by
    rw [List.length_append]
    omega
  simp only [adpcmDecodeBlock, hheader, hn, hnm, decodeChunks_append m c ys hxs,
    List.cons_append]

end Adpcm
end Ls2kMorse
