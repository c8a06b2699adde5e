import Ls2kMorse.Adpcm.Decoder
import Mathlib.Data.List.Indexes

/-!
# Blocks of several channels

The channels of a block take turns, four bytes at a time, and their samples are
interleaved in the output: sample `k` of channel `ch` is stored at
`k * channels + ch`.  The stores are listed here in the order in which they are
made.

Main results:

- Theorem `decodeBytesAt_eq`: the stores for one channel in a chunk.
- Theorem `adpcmDecodeChannels_one`: for one channel this is the decoder of one
  channel.
-/

namespace Ls2kMorse
namespace Adpcm

/-! ## The decoder -/

/-- What a call stores at which place of `outbuf`, and the count that it returns. -/
structure Interleaved where
  stores : List (Nat × Int16)
  samples : Int

/-- The bytes of one channel in a chunk, the first sample at `outbuf`. -/
def decodeBytesAt (channels : Nat) :
    Channel → Nat → List UInt8 → List (Nat × Int16) × Channel
  | c, _, [] => ([], c)
  | c, outbuf, b :: inbuf =>
      let low := c.next b
      let high := low.next (b >>> 4)
      let (stores, last) := decodeBytesAt channels high (outbuf + channels + channels) inbuf
      ((outbuf, low.sample) :: (outbuf + channels, high.sample) :: stores, last)

/-- The loop over the channels of a chunk. -/
def decodeChannelsAt (channels : Nat) :
    List Channel → Nat → List UInt8 → List (Nat × Int16) × List Channel
  | [], _, _ => ([], [])
  | c :: cs, outbuf, inbuf =>
      let (stores, last) := decodeBytesAt channels c outbuf (inbuf.take 4)
      let (rest, lasts) := decodeChannelsAt channels cs (outbuf + 1) (inbuf.drop 4)
      (stores ++ rest, last :: lasts)

/-- The `while` loop with a number of chunks left. -/
def decodeChunksAt (channels : Nat) :
    Nat → List Channel → Nat → List UInt8 → List (Nat × Int16)
  | 0, _, _, _ => []
  | chunks + 1, cs, outbuf, inbuf =>
      let (stores, lasts) := decodeChannelsAt channels cs outbuf inbuf
      stores ++ decodeChunksAt channels chunks lasts (outbuf + channels + channels * 7)
        (inbuf.drop (4 * channels))

/-- The loop over the headers; no channels behind a malformed one. -/
def readHeaders : Nat → Nat → List UInt8 → List (Nat × Int16) × Option (List Channel × List UInt8)
  | 0, _, inbuf => ([], some ([], inbuf))
  | channels + 1, outbuf, b0 :: b1 :: b2 :: b3 :: inbuf =>
      match readHeader b0 b1 b2 b3 with
      | none => ([(outbuf, headerSample b0 b1)], none)
      | some c =>
          let (stores, rest) := readHeaders channels (outbuf + 1) inbuf
          ((outbuf, headerSample b0 b1) :: stores, rest.map fun (cs, inbuf) => (c :: cs, inbuf))
  | _, _, _ => ([], none)

/-- `adpcm_decode_block` on a block of fewer than `2^33` bytes. -/
def adpcmDecodeChannels (inbuf : List UInt8) (channels : Nat) : Interleaved :=
  if inbuf.length < channels * 4 then ⟨[], 0⟩
  else
    match readHeaders channels 0 inbuf with
    | (stores, none) => ⟨stores, 0⟩
    | (stores, some (cs, inbuf)) =>
        let chunks := inbuf.length / (channels * 4)
        ⟨stores ++ decodeChunksAt channels chunks cs channels inbuf, toCInt (1 + chunks * 8)⟩

/-! ## One channel -/

/-- The samples of a channel at every `channels`-th place. -/
def placed (channels outbuf : Nat) (samples : List Int16) : List (Nat × Int16) :=
  samples.mapIdx fun j sample => (outbuf + j * channels, sample)

@[simp]
theorem placed_nil (channels outbuf : Nat) : placed channels outbuf [] = [] :=
  rfl

@[simp]
theorem placed_cons (channels outbuf : Nat) (sample : Int16) (samples : List Int16) :
    placed channels outbuf (sample :: samples) =
      (outbuf, sample) :: placed channels (outbuf + channels) samples := by
  simp only [placed, List.mapIdx_cons, Nat.zero_mul, Nat.add_zero, Nat.add_one_mul]
  congr 2
  funext j sample
  rw [Nat.add_assoc, Nat.add_comm channels]

/-- Samples placed one after the other continue behind the first ones. -/
theorem placed_append (channels outbuf : Nat) (xs ys : List Int16) :
    placed channels outbuf (xs ++ ys) =
      placed channels outbuf xs ++ placed channels (outbuf + xs.length * channels) ys := by
  induction xs generalizing outbuf with
  | nil => simp
  | cons x xs ih =>
      rw [List.cons_append, placed_cons, ih, placed_cons, List.length_cons, List.cons_append,
        Nat.add_one_mul, Nat.add_assoc outbuf, Nat.add_comm channels]

/-- The bytes of one channel decode as before, every `channels` places. -/
theorem decodeBytesAt_eq (channels : Nat) (c : Channel) (outbuf : Nat) (inbuf : List UInt8) :
    decodeBytesAt channels c outbuf inbuf =
      (placed channels outbuf (decodeBytes c inbuf).1, (decodeBytes c inbuf).2) := by
  induction inbuf generalizing c outbuf with
  | nil => rfl
  | cons b inbuf ih => simp [decodeBytesAt, decodeBytes, ih]

/-- With one channel the chunks decode as before, at neighbouring places. -/
theorem decodeChunksAt_one {chunks : Nat} (c : Channel) (outbuf : Nat) {inbuf : List UInt8}
    (h : 4 * chunks ≤ inbuf.length) :
    decodeChunksAt 1 chunks [c] outbuf inbuf = placed 1 outbuf (decodeChunks chunks c inbuf) := by
  induction chunks generalizing c outbuf inbuf with
  | zero => rfl
  | succ chunks ih =>
      have hrest : 4 * chunks ≤ (inbuf.drop 4).length := by
        rw [List.length_drop]
        omega
      have hlen : (decodeBytes c (inbuf.take 4)).1.length * 1 = 8 := by
        rw [length_decodeBytes, List.length_take]
        omega
      simp only [decodeChunksAt, decodeChannelsAt, decodeBytesAt_eq, List.append_nil, Nat.mul_one,
        Nat.one_mul, decodeChunks]
      rw [ih _ _ hrest, placed_append, hlen]

/-- For one channel, the samples are stored one behind the other, and they are those of
the decoder of one channel. -/
theorem adpcmDecodeChannels_one (inbuf : List UInt8) :
    adpcmDecodeChannels inbuf 1 =
      ⟨placed 1 0 (adpcmDecodeBlock inbuf).outbuf, (adpcmDecodeBlock inbuf).samples⟩ := by
  match inbuf with
  | b0 :: b1 :: b2 :: b3 :: inbuf =>
      have hchunks : 4 * (inbuf.length / 4) ≤ inbuf.length := Nat.mul_div_le inbuf.length 4
      cases hheader : readHeader b0 b1 b2 b3 with
      | none => simp [adpcmDecodeChannels, adpcmDecodeBlock, readHeaders, hheader]
      | some c =>
          simp [adpcmDecodeChannels, adpcmDecodeBlock, readHeaders, hheader,
            decodeChunksAt_one c 1 hchunks]
  | [] | [_] | [_, _] | [_, _, _] => simp [adpcmDecodeChannels, adpcmDecodeBlock]

end Adpcm
end Ls2kMorse
