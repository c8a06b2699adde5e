import Ls2kMorse.Adpcm.Decoder

/-!
# The loops over decoded samples

`adpcm_decode`, `adpcm_goertzel_decode` and `adpcm_dtmf_decode` read two samples for
each byte of their buffer, the loop of `filter_thread` always 1024.  The decoder
writes fewer: the header takes four bytes and holds one sample, and a malformed
one ends the decoding.

Main results:

- Theorem `readsDecoded_iff_of_loop`: a loop stays below the count only if it does
  not run.
- Theorem `readsDecoded_iff`: for which sizes the four loops read decoded samples
  only.
-/

namespace Ls2kMorse
namespace Adpcm

/-! ## The loops as the source computes them -/

/-- The indices at which a loop over `pcm_buffer` reads it.  The loop variable has
the value `value k` behind `k` increments, an iteration reads at `reads i`, and
`fuel` bounds the tests of the loop. -/
def sampleLoop (value : Nat → Int) (reads : Int → List Int) (samplesN : Nat) :
    Nat → Nat → List Int
  | 0, _ => []
  | fuel + 1, k =>
      if value k < samplesN then
        reads (value k) ++ sampleLoop value reads samplesN fuel (k + 1)
      else []

/-- The value of `buffersize*2`, which has 32 bits. -/
def samplesOfSize (buffersize : Nat) : Nat :=
  buffersize * 2 % 2 ^ 32

/-- The conversion to `size_t`. -/
def toSizeT (k : Nat) : Int :=
  (k % 2 ^ 64 : Nat)

/-- The loop of `adpcm_decode`, with an `int` index. -/
def adpcmDecodeReads (buffersize fuel : Nat) : List Int :=
  sampleLoop (fun k => toCInt k) (fun i => [i]) (samplesOfSize buffersize) fuel 0

/-- The loop of `adpcm_goertzel_decode`. -/
def adpcmGoertzelDecodeReads (buffersize fuel : Nat) : List Int :=
  sampleLoop toSizeT (fun s => [s]) (samplesOfSize buffersize) fuel 0

/-- The loop of `adpcm_dtmf_decode`, which reads every sample twice. -/
def adpcmDtmfDecodeReads (buffersize fuel : Nat) : List Int :=
  sampleLoop toSizeT (fun s => [s, s]) (samplesOfSize buffersize) fuel 0

/-- The loop of `filter_thread`, with a `long` index. -/
def filterThreadReads (fuel : Nat) : List Int :=
  sampleLoop (fun k => k) (fun i => [i]) (256 * 4) fuel 0

/-- However long the loop has run, it has read below the count that the decoder
returns for the buffer. -/
def ReadsDecoded (reads : Nat → List Int) (buffer : List UInt8) : Prop :=
  ∀ fuel, ∀ i ∈ reads fuel, 0 ≤ i ∧ i < (adpcmDecodeBlock buffer).samples

/-! ## What a loop reads -/

section Loop

variable {value : Nat → Int} {reads : Int → List Int} {samplesN : Nat}

/-- A loop whose variable does not wrap reaches every index below its bound. -/
theorem reads_subset_sampleLoop {n : Nat} (hvalue : ∀ k ≤ n, value k = k) (hn : n < samplesN)
    {k : Nat} (hk : k ≤ n) : reads n ⊆ sampleLoop value reads samplesN (n - k + 1) k := by
  induction hd : n - k generalizing k with
  | zero =>
      have heq : k = n := by omega
      rw [sampleLoop, heq, hvalue n (Nat.le_refl n), if_pos (by omega)]
      exact List.subset_append_left _ _
  | succ d ih =>
      rw [sampleLoop, hvalue k hk, if_pos (by omega)]
      apply List.subset_append_of_subset_right
      exact ih (by omega) (by omega)

/-- A loop over no samples reads nothing. -/
theorem sampleLoop_zero (hvalue : value 0 = 0) (fuel : Nat) :
    sampleLoop value reads 0 fuel 0 = [] := by
  cases fuel with
  | zero => rfl
  | succ fuel => simp [sampleLoop, hvalue]

/-- A loop that would run past the count stays below it only if it does not run. -/
theorem readsDecoded_iff_of_loop (hvalue : ∀ k < 2 ^ 31, value k = k)
    (hreads : ∀ i, i ∈ reads i) {buffer : List UInt8}
    (hint : (adpcmDecodeBlock buffer).samples < 2 ^ 31)
    (hpast : samplesN = 0 ∨ (adpcmDecodeBlock buffer).samples < samplesN) :
    ReadsDecoded (fun fuel => sampleLoop value reads samplesN fuel 0) buffer ↔
      samplesN = 0 := by
  constructor
  · intro h
    by_contra hne
    have hlt := hpast.resolve_left hne
    -- the first index that is not below the count
    have hn : (adpcmDecodeBlock buffer).samples.toNat < samplesN := by omega
    have hsub : reads (adpcmDecodeBlock buffer).samples.toNat ⊆
        sampleLoop value reads samplesN ((adpcmDecodeBlock buffer).samples.toNat - 0 + 1) 0 :=
      reads_subset_sampleLoop (fun k hk => hvalue k (by omega)) hn (Nat.zero_le _)
    have hbelow := (h _ _ (hsub (hreads _))).2
    omega
  · intro hzero fuel i hi
    have hnil : sampleLoop value reads samplesN fuel 0 = [] := by
      rw [hzero]
      exact sampleLoop_zero (hvalue 0 (by decide)) fuel
    simp [hnil] at hi

end Loop

/-! ## The counts of the decoder -/

/-- A small number is an `int` unchanged. -/
theorem toCInt_of_lt {k : Nat} (h : k < 2 ^ 31) : toCInt k = k := by
  unfold toCInt
  rw [Int.bmod_def]
  omega

/-- A small number is a `size_t` unchanged. -/
theorem toSizeT_of_lt {k : Nat} (h : k < 2 ^ 31) : toSizeT k = k := by
  unfold toSizeT
  omega

/-- A block decodes to fewer samples than an `int` can hold. -/
theorem samples_lt {buffer : List UInt8} (hlen : 4 ≤ buffer.length) :
    (adpcmDecodeBlock buffer).samples < 2 ^ 31 := by
  rcases adpcmDecodeBlock_cases hlen with ⟨-, hsamples⟩ | ⟨-, hsamples⟩
  · rw [hsamples]
    decide
  · rw [hsamples, toCInt, Int.bmod_def]
    omega

/-- Unless twice the size wraps to zero, it is more than the count. -/
theorem samples_lt_samplesOfSize {buffer : List UInt8} (hlen : 4 ≤ buffer.length) :
    samplesOfSize buffer.length = 0 ∨
      (adpcmDecodeBlock buffer).samples < samplesOfSize buffer.length := by
  unfold samplesOfSize
  rcases adpcmDecodeBlock_cases hlen with ⟨-, hsamples⟩ | ⟨-, hsamples⟩
  · rw [hsamples]
    omega
  · rw [hsamples, toCInt, Int.bmod_def]
    omega

/-- The number of samples computed from the size is zero for one size only, by a wrap.
-/
theorem samplesOfSize_eq_zero_iff {buffersize : Nat} (hlen : 4 ≤ buffersize)
    (hsize : buffersize < 2 ^ 32) : samplesOfSize buffersize = 0 ↔ buffersize = 2 ^ 31 := by
  unfold samplesOfSize
  omega

/-- For every buffer of at least four bytes whose size has 32 bits: each of the
three decoders reads below the count of `adpcm_decode_block` if and only if twice
the size wraps to zero, so that nothing is read; the loop of `filter_thread` does so
for no batch. -/
theorem readsDecoded_iff {buffer : List UInt8} (hlen : 4 ≤ buffer.length)
    (hsize : buffer.length < 2 ^ 32) :
    (ReadsDecoded (adpcmDecodeReads buffer.length) buffer ↔ buffer.length = 2 ^ 31) ∧
      (ReadsDecoded (adpcmGoertzelDecodeReads buffer.length) buffer ↔
        buffer.length = 2 ^ 31) ∧
      (ReadsDecoded (adpcmDtmfDecodeReads buffer.length) buffer ↔ buffer.length = 2 ^ 31) ∧
      ∀ xbuffer : List UInt8, xbuffer.length = 256 * 2 →
        ¬ ReadsDecoded filterThreadReads xbuffer := by
  have hint := samples_lt hlen
  have hpast := samples_lt_samplesOfSize hlen
  rw [← samplesOfSize_eq_zero_iff hlen hsize]
  refine ⟨?_, ?_, ?_, ?_⟩
  · exact readsDecoded_iff_of_loop (fun k hk => toCInt_of_lt hk) (by simp) hint hpast
  · exact readsDecoded_iff_of_loop (fun k hk => toSizeT_of_lt hk) (by simp) hint hpast
  · exact readsDecoded_iff_of_loop (fun k hk => toSizeT_of_lt hk) (by simp) hint hpast
  · intro xbuffer hxbuffer hreads
    have hfour : 4 ≤ xbuffer.length := by omega
    have hcount : (adpcmDecodeBlock xbuffer).samples < (256 * 4 : Nat) := by
      rcases adpcmDecodeBlock_cases hfour with ⟨-, hsamples⟩ | ⟨-, hsamples⟩
      · rw [hsamples]
        decide
      · rw [hsamples, hxbuffer]
        decide
    have hiff : ReadsDecoded filterThreadReads xbuffer ↔ 256 * 4 = 0 :=
      readsDecoded_iff_of_loop (fun k _ => rfl) (by simp) (by omega) (Or.inr hcount)
    exact absurd (hiff.mp hreads) (by decide)

/-- Twice the size of this buffer wraps to zero. -/
theorem readsDecoded_wrapped :
    let buffer := List.replicate (2 ^ 31) (0 : UInt8)
    ReadsDecoded (adpcmDecodeReads buffer.length) buffer ∧
      ReadsDecoded (adpcmGoertzelDecodeReads buffer.length) buffer ∧
      ReadsDecoded (adpcmDtmfDecodeReads buffer.length) buffer ∧
      ∀ xbuffer : List UInt8, xbuffer.length = 256 * 2 →
        ¬ ReadsDecoded filterThreadReads xbuffer := by
  intro buffer
  have hlength : buffer.length = 2 ^ 31 := List.length_replicate
  have hlen : 4 ≤ buffer.length := by omega
  have hsize : buffer.length < 2 ^ 32 := by omega
  rcases readsDecoded_iff hlen hsize with ⟨h₁, h₂, h₃, h₄⟩
  exact ⟨h₁.mpr hlength, h₂.mpr hlength, h₃.mpr hlength, h₄⟩

/-- For a batch of 512 zero bytes the decoder returns 1017 samples, and
`adpcm_goertzel_decode` reads the next one, too. -/
theorem readsDecoded_batch :
    (adpcmDecodeBlock (List.replicate 512 0)).samples = 1017 ∧
      ¬ ReadsDecoded (adpcmGoertzelDecodeReads 512) (List.replicate 512 0) := by
  have hpast : ∀ {buffer : List UInt8}, (adpcmDecodeBlock buffer).samples = 1017 →
      ¬ ReadsDecoded (adpcmGoertzelDecodeReads 512) buffer := by
    intro buffer hsamples hreads
    have hread : (1017 : Int) ∈ adpcmGoertzelDecodeReads 512 1018 := by decide +kernel
    have hbelow := (hreads 1018 1017 hread).2
    omega
  have hsamples : (adpcmDecodeBlock (List.replicate 512 0)).samples = 1017 := by decide +kernel
  exact ⟨hsamples, hpast hsamples⟩

end Adpcm
end Ls2kMorse
