import Ls2kMorse.Adpcm.Decoder
import Ls2kMorse.Lib.Window
import Ls2kMorse.Recorder.WavHeader

/-!
# The offline filter

`filter_thread` reads a recording, cuts what follows its header of 60 bytes into
batches of 512 bytes, decodes each batch with one call of `adpcm_decode_block`,
feeds 1024 samples to a Goertzel filter and writes 512 levels.  The batch is found
from a counter that runs down and its saved start value.

Main results:

- Theorem `filterThread_eq`: the loop ends, and its batches are those of the file
  in order.
- Theorem `filterThread_covers`: which bytes are read and how many are written.
- Theorem `fed_eq`: what is fed instead of the samples of the two blocks.
- Theorem `filterThread_not_fedByBlocks`: the samples of the two blocks are never
  what is fed.
-/

namespace Ls2kMorse
namespace Adpcm

open Lib
open Recorder (VS1003_ADPCM_BATCH_SIZE)

/-! ## The thread as the source computes it -/

/-- What the thread takes from its surroundings: the memory that `malloc` returns
for `pcm_buffer` with `len` batches left, and the value that the floating-point
functions of the Goertzel filter give for the samples since `goertzel_init`. -/
structure Surroundings where
  malloc : Int → Nat → Int16
  level : List UInt16 → UInt16

/-- `convert`: a signed sample with its zero moved to 32768. -/
def convert (sample : Int16) : UInt16 :=
  32768 + sample.toUInt16

/-- One iteration of the `while` loop: the indices at which it reads `buffer`, the
bytes it copies, the samples it passes to the filter and the bytes it writes. -/
structure Batch where
  reads : List Int
  xbuffer : List UInt8
  fed : List UInt16
  written : List UInt8

/-- The value of `buffer[i]`, none outside the file. -/
def readBuffer (buffer : List UInt8) (i : Int) : Option UInt8 :=
  if 0 ≤ i then buffer[i.toNat]? else none

/-- The samples passed to `goertzel_process_sample_pcm16` for one batch. -/
def feed (e : Surroundings) (len : Int) (xbuffer : List UInt8) : List UInt16 :=
  let outbuf := (adpcmDecodeBlock xbuffer).outbuf
  (List.range (VS1003_ADPCM_BATCH_SIZE * 4)).map fun i =>
    convert (outbuf[i]?.getD (e.malloc len i))

/-- The bytes passed to `fputc`, the low halves of the first levels in `zbuffer`. -/
def levels (e : Surroundings) (fed : List UInt16) : List UInt8 :=
  (List.range (VS1003_ADPCM_BATCH_SIZE * 2)).map fun i => (e.level (fed.take (i + 1))).toUInt8

/-- The body of the `while` loop. -/
def filterBatch (e : Surroundings) (buffer : List UInt8) (num len : Int) : Option Batch := do
  let reads := (List.range (VS1003_ADPCM_BATCH_SIZE * 2)).map fun (i : Nat) =>
    (num - len) * VS1003_ADPCM_BATCH_SIZE * 2 + i + 60
  let xbuffer ← reads.mapM (readBuffer buffer)
  let fed := feed e len xbuffer
  some ⟨reads, xbuffer, fed, levels e fed⟩

/-- The `while` loop; `fuel` bounds its tests. -/
def filterLoop (e : Surroundings) (buffer : List UInt8) (num : Int) :
    Nat → Int → Option (List Batch)
  | 0, _ => none
  | fuel + 1, len =>
      if len ≠ 0 then do
        let batch ← filterBatch e buffer num len
        let rest ← filterLoop e buffer num fuel (len - 1)
        some (batch :: rest)
      else some []

/-- `filter_thread` on the contents of its file. -/
def filterThread (e : Surroundings) (fuel : Nat) (file : List UInt8) : Option (List Batch) :=
  let buffersize := (file.length : Int) - 60
  let len := buffersize.tdiv (VS1003_ADPCM_BATCH_SIZE * 2)
  filterLoop e file len fuel len

/-! ## The batches of a file -/

/-- The number of whole batches behind the header. -/
def batchCount (flen : Nat) : Nat :=
  (flen - 60) / 512

/-- Batch `b` of a file with `num` batches. -/
def batchAt (e : Surroundings) (file : List UInt8) (num b : Nat) : Batch :=
  let xbuffer := window file (60 + 512 * b) 512
  let fed := feed e (num - b : Nat) xbuffer
  ⟨(List.range' (60 + 512 * b) 512).map fun (i : Nat) => (i : Int), xbuffer, fed, levels e fed⟩

/-- The division rounds toward zero, so a file shorter than its header has no
batch. -/
theorem tdiv_batches (flen : Nat) : ((flen : Int) - 60).tdiv 512 = batchCount flen := by
  unfold batchCount
  by_cases hlong : 60 ≤ flen
  · rw [Int.tdiv_eq_ediv_of_nonneg (by omega)]
    omega
  · have hshort : ((60 : Int) - flen).tdiv 512 = 0 := Int.tdiv_eq_zero_of_lt (by omega) (by omega)
    have hneg : (flen : Int) - 60 = -(60 - flen) := by omega
    rw [hneg, Int.neg_tdiv, hshort]
    omega

/-- Every batch counted lies inside the file. -/
theorem batchCount_le {flen b : Nat} (hb : b < batchCount flen) : 60 + 512 * b + 512 ≤ flen := by
  unfold batchCount at hb
  omega

/-- With `n` of `num` batches left, the iteration processes batch `num - n`. -/
theorem filterBatch_eq (e : Surroundings) (file : List UInt8) {num n : Nat} (hn : n ≤ num)
    (hfile : 60 + 512 * (num - n) + 512 ≤ file.length) :
    filterBatch e file num n = some (batchAt e file num (num - n)) := by
  have hreads : ((List.range (VS1003_ADPCM_BATCH_SIZE * 2)).map fun (i : Nat) =>
      ((num : Int) - n) * VS1003_ADPCM_BATCH_SIZE * 2 + i + 60) =
        (List.range' (60 + 512 * (num - n)) 512).map fun (i : Nat) => (i : Int) := by
    rw [List.range'_eq_map_range, List.map_map]
    apply List.map_congr_left
    intro i _
    simp only [VS1003_ADPCM_BATCH_SIZE, Function.comp_apply]
    omega
  have hread : ∀ i : Nat, readBuffer file i = file[i]? := by
    intro i
    simp [readBuffer]
  have hxbuffer : ((List.range' (60 + 512 * (num - n)) 512).map fun (i : Nat) => (i : Int)).mapM
      (readBuffer file) = some (window file (60 + 512 * (num - n)) 512) := by
    rw [List.mapM_map]
    simp only [Function.comp_def, hread]
    exact mapM_range'_getElem? hfile
  have hlen : num - (num - n) = n := by omega
  unfold filterBatch batchAt
  simp only [hreads, hxbuffer, hlen, Option.bind_eq_bind, Option.bind_some]

/-- With `n` of `num` batches left, the loop processes the last `n` batches. -/
theorem filterLoop_eq (e : Surroundings) (file : List UInt8) {n fuel : Nat}
    (hn : n ≤ batchCount file.length) (hfuel : n < fuel) :
    filterLoop e file (batchCount file.length) fuel n =
      some ((List.range' (batchCount file.length - n) n).map
        (batchAt e file (batchCount file.length))) := by
  induction n generalizing fuel with
  | zero =>
      obtain ⟨fuel, rfl⟩ : ∃ f, fuel = f + 1 := ⟨fuel - 1, by omega⟩
      simp [filterLoop]
  | succ n ih =>
      obtain ⟨fuel, rfl⟩ : ∃ f, fuel = f + 1 := ⟨fuel - 1, by omega⟩
      have hne : ((n + 1 : Nat) : Int) ≠ 0 := by omega
      have hpred : ((n + 1 : Nat) : Int) - 1 = n := by omega
      have hnext : batchCount file.length - (n + 1) + 1 = batchCount file.length - n := by omega
      have hfile := batchCount_le
        (by omega : batchCount file.length - (n + 1) < batchCount file.length)
      rw [filterLoop, if_pos hne, filterBatch_eq e file hn hfile, hpred,
        ih (by omega) (by omega), List.range'_succ, hnext]
      rfl

/-- The loop ends, and its iterations are the batches of the file in order. -/
theorem filterThread_eq (e : Surroundings) (file : List UInt8) {fuel : Nat}
    (hfuel : batchCount file.length < fuel) :
    filterThread e fuel file =
      some ((List.range (batchCount file.length)).map
        (batchAt e file (batchCount file.length))) := by
  have hcount : ((file.length : Int) - 60).tdiv (VS1003_ADPCM_BATCH_SIZE * 2) =
      batchCount file.length := tdiv_batches file.length
  unfold filterThread
  simp only [hcount]
  rw [filterLoop_eq e file (Nat.le_refl _) hfuel, Nat.sub_self, List.range_eq_range']

/-- For every file, however short: the thread ends; it processes the whole batches
of 512 bytes behind the header of 60 bytes; iteration `b` reads the 512 bytes from
`60 + 512 * b` on, in order; no index lies outside the file, and none is read
twice; 512 bytes are written for each batch. -/
theorem filterThread_covers (e : Surroundings) (file : List UInt8) :
    ∃ batches, (∀ fuel, file.length < fuel → filterThread e fuel file = some batches) ∧
      (batches.length : Int) = max 0 (((file.length : Int) - 60) / 512) ∧
      (∀ b, ∀ hb : b < batches.length,
        batches[b].reads = (List.range' (60 + 512 * b) 512).map (fun (i : Nat) => (i : Int)) ∧
          batches[b].xbuffer = window file (60 + 512 * b) 512) ∧
      (∀ batch ∈ batches, ∀ i ∈ batch.reads, 0 ≤ i ∧ i < file.length) ∧
      (batches.flatMap fun batch => batch.reads).Nodup ∧
      (batches.flatMap fun batch => batch.written).length = 512 * batches.length := by
  have hle : batchCount file.length ≤ file.length := by
    unfold batchCount
    omega
  refine ⟨_, fun fuel hfuel => filterThread_eq e file (Nat.lt_of_le_of_lt hle hfuel),
    ?_, ?_, ?_, ?_, ?_⟩
  · rw [List.length_map, List.length_range]
    unfold batchCount
    omega
  · intro b hb
    rw [List.getElem_map, List.getElem_range]
    exact ⟨rfl, rfl⟩
  · intro batch hbatch i hi
    rcases List.mem_map.mp hbatch with ⟨b, hb, rfl⟩
    rcases List.mem_map.mp hi with ⟨j, hj, rfl⟩
    have hfile := batchCount_le (List.mem_range.mp hb)
    rw [List.mem_range'_1] at hj
    omega
  · rw [List.flatMap_map]
    have hreads : ((List.range (batchCount file.length)).flatMap fun b =>
        (batchAt e file (batchCount file.length) b).reads) =
          (List.range' 60 (512 * batchCount file.length)).map fun (i : Nat) => (i : Int) := by
      rw [← flatMap_range' 60, List.map_flatMap]
      rfl
    rw [hreads]
    exact List.Nodup.map Int.ofNat_injective List.nodup_range'
  · rw [List.flatMap_map, List.length_flatMap, List.length_map, List.length_range]
    have hwritten : ∀ b, (batchAt e file (batchCount file.length) b).written.length = 512 := by
      intro b
      simp [batchAt, levels, VS1003_ADPCM_BATCH_SIZE]
    simp only [hwritten, List.map_const', List.sum_replicate, List.length_range]
    exact Nat.mul_comm _ _

/-! ## What the filter is fed -/

/-- The samples of a batch are those of its two blocks of 256 bytes, each decoded
by itself. -/
def FedByBlocks (batch : Batch) : Prop :=
  batch.fed =
    (blockSamples (batch.xbuffer.take 256) ++ blockSamples (batch.xbuffer.drop 256)).map convert

/-- A buffer that is filled from the front. -/
theorem map_range_getD (xs : List Int16) (rest : Nat → Int16) (k : Nat) :
    ((List.range (xs.length + k)).map fun i => convert (xs[i]?.getD (rest i))) =
      xs.map convert ++ (List.range' xs.length k).map fun i => convert (rest i) := by
  have hfront : ((List.range xs.length).map fun i => convert (xs[i]?.getD (rest i))) =
      xs.map convert := by
    apply List.ext_getElem
    · simp
    · intro i hi _
      have hlt : i < xs.length := by simpa using hi
      simp [hlt]
  rw [List.range_add, List.map_append, hfront, List.range'_eq_map_range, List.map_map,
    List.map_map]
  congr 1
  apply List.map_congr_left
  intro i _
  simp

/-- A block of 256 bytes has at most 505 samples. -/
theorem length_blockSamples_le {inbuf : List UInt8} (h : inbuf.length = 256) :
    (blockSamples inbuf).length ≤ 505 := by
  unfold blockSamples
  rw [List.length_take]
  rcases adpcmDecodeBlock_cases (by omega : 4 ≤ inbuf.length) with ⟨hlen, -⟩ | ⟨hlen, -⟩
  · omega
  · rw [h] at hlen
    omega

/-- Behind a good header, the filter is fed the samples of the first block, then
those of the second block's bytes, its header included, decoded from the state
behind the first, and last seven values that nobody wrote. -/
theorem fed_eq (e : Surroundings) (len : Int) {b0 b1 b2 b3 : UInt8} {c : Channel}
    (hheader : readHeader b0 b1 b2 b3 = some c) {xs ys : List UInt8} (hxs : xs.length = 252)
    (hys : ys.length = 256) :
    feed e len (b0 :: b1 :: b2 :: b3 :: (xs ++ ys)) =
      (blockSamples (b0 :: b1 :: b2 :: b3 :: xs) ++
          decodeChunks 64 (channelAfter 63 c xs) ys).map convert ++
        (List.range' 1017 7).map fun i => convert (e.malloc len i) := by
  have hsplit := outbuf_append hheader (n := 63) (m := 64) hxs hys
  have hchunks : 4 * 63 ≤ xs.length := Nat.le_of_eq hxs.symm
  have hblock : blockSamples (b0 :: b1 :: b2 :: b3 :: xs) =
      (adpcmDecodeBlock (b0 :: b1 :: b2 :: b3 :: xs)).outbuf := by
    apply List.take_of_length_le
    simp only [adpcmDecodeBlock, hheader, hxs, List.length_cons]
    rw [length_decodeChunks c hchunks]
    decide
  have hlen : ((adpcmDecodeBlock (b0 :: b1 :: b2 :: b3 :: xs)).outbuf ++
      decodeChunks 64 (channelAfter 63 c xs) ys).length = 1017 := by
    simp only [adpcmDecodeBlock, hheader, hxs, List.length_append, List.length_cons]
    rw [length_decodeChunks c hchunks, length_decodeChunks _ (Nat.le_of_eq hys.symm)]
  have hfill := map_range_getD ((adpcmDecodeBlock (b0 :: b1 :: b2 :: b3 :: xs)).outbuf ++
    decodeChunks 64 (channelAfter 63 c xs) ys) (e.malloc len) 7
  rw [hlen] at hfill
  unfold feed
  rw [hsplit, hblock]
  exact hfill

/-- The two blocks of a batch have at most 1010 samples, and 1024 are fed. -/
theorem batchAt_not_fedByBlocks (e : Surroundings) {file : List UInt8} (num : Nat) {b : Nat}
    (hb : b < batchCount file.length) : ¬ FedByBlocks (batchAt e file num b) := by
  intro hfed
  have hxbuffer : (batchAt e file num b).xbuffer.length = 512 :=
    length_window (batchCount_le hb)
  have hfirst : ((batchAt e file num b).xbuffer.take 256).length = 256 := by
    rw [List.length_take]
    omega
  have hsecond : ((batchAt e file num b).xbuffer.drop 256).length = 256 := by
    rw [List.length_drop]
    omega
  have hblocks := Nat.add_le_add (length_blockSamples_le hfirst) (length_blockSamples_le hsecond)
  have hfeed : (batchAt e file num b).fed.length = 1024 := by
    simp [batchAt, feed, VS1003_ADPCM_BATCH_SIZE]
  have hlen := congrArg List.length hfed
  rw [hfeed, List.length_map, List.length_append] at hlen
  omega

/-- For every file the thread ends, and in none of its batches are the samples of
the two blocks what the filter is fed. -/
theorem filterThread_not_fedByBlocks (e : Surroundings) (file : List UInt8) :
    ∃ batches, (∀ fuel, file.length < fuel → filterThread e fuel file = some batches) ∧
      batches.length = batchCount file.length ∧ ∀ batch ∈ batches, ¬ FedByBlocks batch := by
  have hle : batchCount file.length ≤ file.length := by
    unfold batchCount
    omega
  refine ⟨_, fun fuel hfuel => filterThread_eq e file (Nat.lt_of_le_of_lt hle hfuel), ?_, ?_⟩
  · rw [List.length_map, List.length_range]
  · intro batch hbatch
    rcases List.mem_map.mp hbatch with ⟨b, hb, rfl⟩
    exact batchAt_not_fedByBlocks e _ (List.mem_range.mp hb)

/-- A header and two blocks, with headers of their own. -/
theorem filterThread_two_headers :
    let file := List.replicate 60 0 ++ ([0x10, 0x27, 40, 0] ++ List.replicate 252 0x73) ++
      ([0xf0, 0xd8, 20, 0] ++ List.replicate 252 0x1c)
    ∃ batch, filterThread ⟨fun _ _ => 0, fun _ => 0⟩ 2 file = some [batch] ∧
      ¬ FedByBlocks batch := by
  intro file
  have hlength : file.length = 572 := by
    simp only [file, List.length_append, List.length_replicate, List.length_cons, List.length_nil]
  have hcount : batchCount file.length = 1 := by
    rw [hlength]
    decide
  have heq := filterThread_eq ⟨fun _ _ => 0, fun _ => 0⟩ file
    (by omega : batchCount file.length < 2)
  have hb : 0 < batchCount file.length := by omega
  rw [hcount] at heq
  exact ⟨_, heq, batchAt_not_fedByBlocks _ 1 hb⟩

end Adpcm
end Ls2kMorse
