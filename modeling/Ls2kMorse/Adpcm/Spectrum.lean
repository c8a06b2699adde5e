import Ls2kMorse.Adpcm.BandEnergy
import Ls2kMorse.Adpcm.Decoder
import Ls2kMorse.Fft.Transform
import Mathlib.Analysis.SpecialFunctions.Log.Base

/-!
# The level of a recording by its spectrum

`adpcm_decode` decodes a buffer, transforms 1024 samples and adds up the magnitudes of a
band.  The band is meant to begin at the frequency 282; the sum begins at the first
frequency.

Main results:

- Theorem `adpcmDecode_eq`: the level, from the decoded samples.
- Theorem `adpcmDecode_repeat`: sounds whose level is zero however loud they are.
-/

namespace Ls2kMorse
namespace Adpcm

open Finset Fft
open Lib (window)
open Lib.Fourier
open Function (update)

/-! ## The function as the source computes it -/

/-- The sample `pcm_buffer[i]`; what the decoder has not written is what `rt_malloc`
returned. -/
def pcmBuffer (malloc : Nat → Int16) (buffer : List UInt8) (i : Nat) : Int16 :=
  (adpcmDecodeBlock buffer).outbuf[i]?.getD (malloc i)

/-- The loop that fills `sig`. -/
noncomputable def fillSig (src : Nat) (pcm : Nat → Int16) (samplesN : Nat)
    (mem : Nat → Cpx ℝ) : Nat → Cpx ℝ :=
  (List.range samplesN).foldl (fun mem i => update mem (src + i) ⟨(pcm i).toInt, 0⟩) mem

/-- The magnitude of a bin, `sqrt(r*r + i*i)`. -/
noncomputable def magnitude (cpx : Cpx ℝ) : ℝ :=
  Real.sqrt (cpx.r * cpx.r + cpx.i * cpx.i)

/-- The conversion of a `double` to an `int`, where it has a value. -/
noncomputable def truncate (x : ℝ) : Int :=
  if 0 ≤ x then ⌊x⌋ else ⌈x⌉

/-- `adpcm_decode`; `src` and `dst` are the addresses that `malloc` returns for the data of
`sig` and `freq`, and no value means that these are too small. -/
noncomputable def adpcmDecode (malloc : Nat → Int16) (mem : Nat → Cpx ℝ) (src dst : Nat)
    (buffer : List UInt8) : Option Int := do
  let samplesN := buffer.length * 2
  let mem := fillSig src (pcmBuffer malloc buffer) samplesN mem
  let cfg ← kissFftAlloc 1024 false
  if samplesN < 1024 then
    none
  else
    let mem := kissFft cfg src dst 0 mem
    let spec := (List.range 1024).map fun i => magnitude (mem (dst + i))
    let sum ← doubleTupleSum 282 294 spec
    some (truncate (Real.logb 10 (1 + sum)))

/-! ## The level -/

/-- The spectrum of 1024 samples. -/
noncomputable def spectrum (x : Nat → ℝ) : Nat → Cpx ℝ :=
  dft (base 1024 false) 1024 fun j => ⟨x j, 0⟩

/-- The sum of the magnitudes at the twelve lowest frequencies. -/
noncomputable def lowest (x : Nat → ℝ) : ℝ :=
  ∑ k ∈ range 12, magnitude (spectrum x k)

/-- The signal is copied into the real parts. -/
theorem fillSig_eq (src : Nat) (pcm : Nat → Int16) (samplesN : Nat) (mem : Nat → Cpx ℝ)
    {i : Nat} (hi : i < samplesN) :
    fillSig src pcm samplesN mem (src + i) = ⟨(pcm i).toInt, 0⟩ :=
  (foldl_update (fun _ _ => Nat.add_left_cancel) _ mem samplesN (src + i)).1 i hi rfl

/-- The sum over the band is the one over the lowest frequencies. -/
theorem doubleTupleSum_spec (spec : Nat → ℝ) :
    doubleTupleSum 282 294 ((List.range 1024).map spec) = some (∑ k ∈ range 12, spec k) := by
  have htake : window ((List.range 1024).map spec) 0 12 = (List.range 12).map spec := by
    unfold window
    rw [List.drop_zero, ← List.map_take, List.take_range]
    rfl
  rw [doubleTupleSum_eq (by simp)]
  exact congrArg (fun band => some band.sum) htake

/-- The sum of magnitudes is not negative. -/
theorem lowest_nonneg (x : Nat → ℝ) : 0 ≤ lowest x :=
  sum_nonneg fun _ _ => Real.sqrt_nonneg _

/-- The level of a sum of magnitudes: one less than the number of digits of the sum and
one. -/
theorem truncate_logb {x : ℝ} (hx : 0 ≤ x) :
    ∃ level : Nat, truncate (Real.logb 10 (1 + x)) = level ∧
      (10 : ℝ) ^ level ≤ 1 + x ∧ 1 + x < 10 ^ (level + 1) := by
  have hlog : 0 ≤ Real.logb 10 (1 + x) := Real.logb_nonneg (by norm_num) (by linarith)
  obtain ⟨level, hlevel⟩ := Int.eq_ofNat_of_zero_le (Int.floor_nonneg.mpr hlog)
  refine ⟨level, by rw [truncate, if_pos hlog, hlevel], ?_, ?_⟩
  · have hle : (level : ℝ) ≤ Real.logb 10 (1 + x) := by
      have := Int.floor_le (Real.logb 10 (1 + x))
      rwa [hlevel] at this
    rw [Real.le_logb_iff_rpow_le (by norm_num) (by linarith), Real.rpow_natCast] at hle
    exact hle
  · have hlt : Real.logb 10 (1 + x) < (level + 1 : Nat) := by
      have := Int.lt_floor_add_one (Real.logb 10 (1 + x))
      rw [hlevel] at this
      exact_mod_cast this
    rw [Real.logb_lt_iff_lt_rpow (by norm_num) (by linarith), Real.rpow_natCast] at hlt
    exact hlt

/-- What is returned for a buffer with enough samples. -/
theorem adpcmDecode_eq_truncate (malloc : Nat → Int16) (mem : Nat → Cpx ℝ) {src dst : Nat}
    {buffer : List UInt8} (hlen : 512 ≤ buffer.length)
    (hsep : src + buffer.length * 2 ≤ dst ∨ dst + buffer.length * 2 ≤ src) :
    adpcmDecode malloc mem src dst buffer =
      some (truncate (Real.logb 10 (1 + lowest fun j => (pcmBuffer malloc buffer j).toInt))) := by
  obtain ⟨cfg, halloc, -⟩ := exists_kissFftAlloc (by decide : 0 < 1024) false
  obtain ⟨hnfft, hfactors, ht⟩ := twiddles_kissFftAlloc (by decide) halloc
  have hbuffers : Buffers cfg.nfft src dst 1 0 := by
    rw [hnfft, Buffers, if_neg (by omega)]
    intro i hi
    omega
  rw [← hnfft] at hfactors
  have hstored := (kissFftStride_eq ht hfactors hbuffers
    (fillSig src (pcmBuffer malloc buffer) (buffer.length * 2) mem)).1
  rw [hnfft] at hstored
  have hspectrum : ∀ k < 1024, kissFft cfg src dst 0
      (fillSig src (pcmBuffer malloc buffer) (buffer.length * 2) mem) (dst + k) =
      spectrum (fun j => (pcmBuffer malloc buffer j).toInt) k := by
    intro k hk
    rw [kissFft, hstored k hk]
    apply dft_congr
    intro j hj
    rw [mul_one, fillSig_eq src _ _ mem (by omega)]
  have hlowest : ∑ k ∈ range 12, magnitude (kissFft cfg src dst 0
      (fillSig src (pcmBuffer malloc buffer) (buffer.length * 2) mem) (dst + k)) =
      lowest fun j => (pcmBuffer malloc buffer j).toInt := by
    apply sum_congr rfl
    intro k hk
    rw [hspectrum k (by have := mem_range.mp hk; omega)]
  have henough : ¬ buffer.length * 2 < 1024 := by omega
  simp only [adpcmDecode, halloc, Option.bind_eq_bind, Option.bind_some, if_neg henough,
    doubleTupleSum_spec, hlowest]

/-- For every buffer of at least 512 bytes, separate arrays and any content of the memory:
the level is the number of digits, less one, of one and the sum of the magnitudes of the
twelve lowest frequencies of the decoded samples. -/
theorem adpcmDecode_eq (malloc : Nat → Int16) (mem : Nat → Cpx ℝ) {src dst : Nat}
    {buffer : List UInt8} (hlen : 512 ≤ buffer.length)
    (hsep : src + buffer.length * 2 ≤ dst ∨ dst + buffer.length * 2 ≤ src) :
    ∃ level : Nat, adpcmDecode malloc mem src dst buffer = some (level : Int) ∧
      (10 : ℝ) ^ level ≤ 1 + lowest (fun j => (pcmBuffer malloc buffer j).toInt) ∧
      1 + lowest (fun j => (pcmBuffer malloc buffer j).toInt) < 10 ^ (level + 1) := by
  rw [adpcmDecode_eq_truncate malloc mem hlen hsep]
  obtain ⟨level, htruncate, hbounds⟩ :=
    truncate_logb (lowest_nonneg fun j => (pcmBuffer malloc buffer j).toInt)
  exact ⟨level, by rw [htruncate], hbounds⟩

/-- The level of a batch with sound in it. -/
theorem adpcmDecode_eq_sound :
    let buffer : List UInt8 := [0x10, 0x27, 40, 0] ++ List.replicate 508 0x73
    ∃ level : Nat, adpcmDecode (fun _ => 0) (fun _ => 0) 0 1024 buffer = some (level : Int) ∧
      (10 : ℝ) ^ level ≤ 1 + lowest (fun j => (pcmBuffer (fun _ => 0) buffer j).toInt) ∧
      1 + lowest (fun j => (pcmBuffer (fun _ => 0) buffer j).toInt) < 10 ^ (level + 1) := by
  intro buffer
  have hlength : buffer.length = 512 := by
    simp only [buffer, List.length_append, List.length_replicate, List.length_cons,
      List.length_nil]
  exact adpcmDecode_eq (fun _ => 0) (fun _ => 0) hlength.ge (.inl (by rw [hlength]))

/-! ## Signals that repeat -/

/-- A sum of real values is real. -/
theorem sum_real (w : Nat → ℝ) (p : Nat) :
    ∑ i ∈ range p, (⟨w i, 0⟩ : Cpx ℝ) = ⟨∑ i ∈ range p, w i, 0⟩ := by
  induction p with
  | zero => ext <;> simp
  | succ p ih =>
      rw [sum_range_succ, ih, sum_range_succ]
      ext <;> simp

/-- The spectrum of a signal that repeats, at a frequency below its own. -/
theorem spectrum_repeat {p m k : Nat} (hpm : p * m = 1024) (hk : k < m) {w : Nat → ℝ}
    (hmean : ∑ i ∈ range p, w i = 0) : spectrum (fun j => w (j % p)) k = 0 := by
  have hp : 0 < p := Nat.pos_of_ne_zero (by rintro rfl; omega)
  have hrepeat := dft_repeat (base 1024 false) p m (fun i => (⟨w i, 0⟩ : Cpx ℝ)) k
  rw [hpm] at hrepeat
  rw [spectrum, hrepeat]
  by_cases hzero : k = 0
  · have hconstant : dft (base 1024 false) p (fun i => (⟨w i, 0⟩ : Cpx ℝ)) k = 0 := by
      simp only [dft, hzero, mul_zero, pow_zero, mul_one]
      rw [sum_real, hmean]
      rfl
    rw [hconstant, zero_mul]
  · have hroot : (base 1024 false ^ (p * k)) ^ m = 1 := by
      rw [← pow_mul, mul_right_comm, hpm, pow_mul, base_pow_self (by decide), one_pow]
    have hlt : p * k < 1024 := by
      rw [← hpm]
      exact Nat.mul_lt_mul_of_pos_left hk hp
    rw [sum_pow_eq_zero hroot
      (base_pow_ne (Nat.mul_pos hp (Nat.pos_of_ne_zero hzero)) hlt false), mul_zero]

/-- However loud a sound is: when its samples repeat with a period that divides 1024 and
is at most 64, and have no constant part, its level is zero. -/
theorem adpcmDecode_repeat (malloc : Nat → Int16) (mem : Nat → Cpx ℝ) {src dst : Nat}
    {buffer : List UInt8} (hlen : 512 ≤ buffer.length)
    (hsep : src + buffer.length * 2 ≤ dst ∨ dst + buffer.length * 2 ≤ src)
    {p m : Nat} (hpm : p * m = 1024) (hm : 12 ≤ m) {w : Nat → Int}
    (hmean : ∑ i ∈ range p, w i = 0)
    (hrepeat : ∀ j < 1024, (pcmBuffer malloc buffer j).toInt = w (j % p)) :
    adpcmDecode malloc mem src dst buffer = some 0 := by
  have hlowest : lowest (fun j => (pcmBuffer malloc buffer j).toInt) = 0 := by
    apply sum_eq_zero
    intro k hk
    have hsame : spectrum (fun j => (pcmBuffer malloc buffer j).toInt) k =
        spectrum (fun j => (w (j % p) : ℝ)) k := by
      apply dft_congr
      intro j hj
      simp only [hrepeat j hj]
    have hkm : k < m := by
      have := mem_range.mp hk
      omega
    have hmean' : ∑ i ∈ range p, (w i : ℝ) = 0 := by exact_mod_cast hmean
    rw [hsame, spectrum_repeat hpm hkm hmean']
    simp [magnitude]
  rw [adpcmDecode_eq_truncate malloc mem hlen hsep, hlowest]
  simp [truncate]

/-- Samples that alternate between two values. -/
theorem adpcmDecode_repeat_alternating :
    adpcmDecode (fun j => if j % 2 = 0 then -2 else 2) (fun _ => 0) 0 1024
      ([0xfe, 0xff, 0, 0] ++ List.replicate 508 0xb3) = some 0 := by
  have hlen : ([0xfe, 0xff, 0, 0] ++ List.replicate 508 0xb3 : List UInt8).length = 512 := by
    rw [List.length_append, List.length_replicate]
    rfl
  refine adpcmDecode_repeat (p := 2) (m := 512) (w := fun i => if i = 0 then -2 else 2) _ _
    hlen.ge (.inl (by rw [hlen])) (by decide) (by decide) (by decide) (fun j _ => ?_)
  have hout : (adpcmDecodeBlock ([0xfe, 0xff, 0, 0] ++ List.replicate 508 0xb3)).outbuf =
      (List.range 1017).map fun j => if j % 2 = 0 then -2 else 2 := by
    decide +kernel
  rw [pcmBuffer, hout]
  by_cases hj : j < 1017 <;> by_cases heven : j % 2 = 0 <;> simp [hj, heven]

end Adpcm
end Ls2kMorse
