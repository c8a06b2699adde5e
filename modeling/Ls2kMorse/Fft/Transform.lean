import Ls2kMorse.Fft.Butterfly
import Ls2kMorse.Fft.Factor
import Mathlib.Analysis.SpecialFunctions.Trigonometric.Basic

/-!
# The Fourier transform

`kiss_fft_alloc` prepares the radices and the twiddles of a length, and `kiss_fft_stride`
transforms an array with them.  `kf_work` calls itself for every part of the input that is
taken in steps, and combines the results in the array of the output.  Input and output lie
in one memory of exact complex numbers.

Main results:

- Theorem `kfWork_eq`: a call of `kf_work` is a discrete Fourier transform.
- Theorem `kissFftStride_eq`: for every length, both senses and in place or not, the
  output is the transform of the input.
- Theorem `kissFft_kissFft`: the inverse transform of a transform is the input times its
  length.
-/

namespace Ls2kMorse
namespace Fft

open Finset Lib.Fourier
open Function (update)

section Work

variable {K : Type*} [Field K]

/-! ## The functions as the source computes them -/

/-- The `switch` on the radix. -/
def kfBfly (fstride : Nat) (st : Cfg K) (m p : Nat) : (Nat → Cpx K) → Nat → Cpx K :=
  match p with
  | 2 => kfBfly2 fstride st m
  | 3 => kfBfly3 fstride st m
  | 4 => kfBfly4 fstride st m
  | 5 => kfBfly5 fstride st m
  | p => kfBflyGeneric fstride st m p

/-- `kf_work`, with the addresses of the output and of the input. -/
def kfWork (inStride : Nat) (st : Cfg K) :
    List (Nat × Nat) → Nat → Nat → Nat → (Nat → Cpx K) → Nat → Cpx K
  -- `kf_factor` ends its pairs with a part of length one
  | [], _, _, _, mem => mem
  | (p, m) :: factors, fstride, Fout, f, mem =>
      let mem :=
        if m = 1 then
          (List.range p).foldl (fun mem q =>
            update mem (Fout + q) (mem (f + q * (fstride * inStride)))) mem
        else
          (List.range p).foldl (fun mem q =>
            kfWork inStride st factors (fstride * p) (Fout + q * m)
              (f + q * (fstride * inStride)) mem) mem
      onSegment Fout (kfBfly fstride st m p) mem

/-- `memcpy` of `n` complex numbers. -/
def memcpy (dst src n : Nat) (mem : Nat → Cpx K) : Nat → Cpx K :=
  (List.range n).foldl (fun mem i => update mem (dst + i) (mem (src + i))) mem

/-- `kiss_fft_stride`; `tmpbuf` is the address that the allocation returns. -/
def kissFftStride (st : Cfg K) (fin fout inStride tmpbuf : Nat) (mem : Nat → Cpx K) :
    Nat → Cpx K :=
  if fin = fout then
    memcpy fout tmpbuf st.nfft (kfWork inStride st st.factors 1 tmpbuf fin mem)
  else
    kfWork inStride st st.factors 1 fout fin mem

/-- `kiss_fft`: the transform of neighbouring elements. -/
def kissFft (cfg : Cfg K) (fin fout tmpbuf : Nat) (mem : Nat → Cpx K) : Nat → Cpx K :=
  kissFftStride cfg fin fout 1 tmpbuf mem

/-! ## One call of `kf_work` -/

variable {st : Cfg K} {ζ : Cpx K}

/-- Every butterfly combines `p` transforms of length `m` into one. -/
theorem kfBfly_combines [CharZero K] {fstride p m : Nat} (ht : Twiddles st ζ)
    (hsize : fstride * (p * m) = st.nfft) :
    Combines (ζ ^ fstride) p m (kfBfly fstride st m p) := by
  unfold kfBfly
  split
  · exact kfBfly2_combines ht hsize
  · exact kfBfly3_combines ht hsize
  · exact kfBfly4_combines ht hsize
  · exact kfBfly5_combines ht hsize
  · exact kfBflyGeneric_combines ht hsize

/-- The part of an input that a recursive call reads lies outside of the whole output. -/
theorem apart_read {f step Fout p m q i : Nat} (h : Apart f step Fout (p * m)) (hq : q < p)
    (hi : i < m) :
    ¬ (Fout ≤ f + q * step + i * (p * step) ∧
      f + q * step + i * (p * step) < Fout + p * m) := by
  have hindex : p * i + q < p * m := by
    calc p * i + q < p * i + p := Nat.add_lt_add_left hq _
      _ = p * (i + 1) := (Nat.mul_succ p i).symm
      _ ≤ p * m := Nat.mul_le_mul_left p hi
  have haddr : f + (p * i + q) * step = f + q * step + i * (p * step) := by ring
  rw [← haddr]
  exact h _ hindex

/-- The place of a part of the output. -/
theorem segment_le (Fout m : Nat) {p q : Nat} (hq : q < p) : Fout + q * m + m ≤ Fout + p * m := by
  have hpart : (q + 1) * m ≤ p * m := Nat.mul_le_mul_right m hq
  rw [Nat.succ_mul] at hpart
  omega

/-- The transforms of the parts of an input, one behind the other. -/
def parts (ω : Cpx K) (p m f step : Nat) (mem : Nat → Cpx K) (k : Nat) : Cpx K :=
  dft (ω ^ p) m (fun i => mem (f + (p * i + k / m) * step)) (k % m)

/-- A loop that stores the transform of one part in each step. -/
theorem foldl_parts {ω : Cpx K} {p m f step Fout : Nat} (hm : 0 < m)
    (hapart : Apart f step Fout (p * m)) {work : Nat → (Nat → Cpx K) → Nat → Cpx K}
    (hwork : ∀ q G, Apart (f + q * step) (p * step) (Fout + q * m) m → ∀ k, work q G k =
      if Fout + q * m ≤ k ∧ k < Fout + q * m + m then
        dft (ω ^ p) m (fun i => G (f + q * step + i * (p * step))) (k - (Fout + q * m))
      else G k) (mem : Nat → Cpx K) (k : Nat) :
    (List.range p).foldl (fun mem q => work q mem) mem k =
      if Fout ≤ k ∧ k < Fout + p * m then parts ω p m f step mem (k - Fout) else mem k := by
  refine foldl_segments hm (fun q => dft (ω ^ p) m fun i => mem (f + (p * i + q) * step))
    (fun q hq G hG k => ?_) (Nat.le_refl p) k
  have hpart : Apart (f + q * step) (p * step) (Fout + q * m) m := by
    intro i hi hin
    have hread := apart_read hapart hq hi
    have hsegment := segment_le Fout m hq
    omega
  rw [hwork q G hpart]
  split_ifs with hk
  · apply dft_congr
    intro i hi
    rw [hG _ (apart_read hapart hq hi)]
    congr 1
    ring
  · rfl

/-- The combined transforms of the parts are the transform of the input. -/
theorem combined_parts {ω : Cpx K} {p m f step Fout : Nat} (hm : 0 < m)
    (hroot : ω ^ (p * m) = 1) {mem G : Nat → Cpx K}
    (hG : ∀ k, G k =
      if Fout ≤ k ∧ k < Fout + p * m then parts ω p m f step mem (k - Fout) else mem k)
    (k : Nat) :
    combined ω p m (fun i => G (Fout + i)) k =
      dft ω (p * m) (fun i => mem (f + i * step)) k := by
  rw [dft_decimate hroot, combined]
  apply sum_congr rfl
  intro q hq
  have hsegment := segment_le Fout m (mem_range.mp hq)
  have hmod := Nat.mod_lt k hm
  have hdiv : (k % m + q * m) / m = q := by
    rw [Nat.add_mul_div_right _ _ hm, Nat.div_eq_of_lt hmod, Nat.zero_add]
  rw [hG, if_pos (by omega), Nat.add_sub_cancel_left, parts, hdiv, Nat.add_mul_mod_self_right,
    Nat.mod_mod]

/-- A call of `kf_work` stores the transform of its input, and changes nothing else. -/
theorem kfWork_eq [CharZero K] (ht : Twiddles st ζ) (inStride : Nat)
    {factors : List (Nat × Nat)} {n fstride : Nat} (hfactors : Factors n factors)
    (hsize : fstride * n = st.nfft) (Fout f : Nat) (mem : Nat → Cpx K)
    (hapart : Apart f (fstride * inStride) Fout n) (k : Nat) :
    kfWork inStride st factors fstride Fout f mem k =
      if Fout ≤ k ∧ k < Fout + n then
        dft (ζ ^ fstride) n (fun i => mem (f + i * (fstride * inStride))) (k - Fout)
      else mem k := by
  induction factors generalizing n fstride Fout f mem k with
  | nil => exact hfactors.elim
  | cons factor factors ih =>
      obtain ⟨p, m⟩ := factor
      obtain ⟨rfl, hrest⟩ := hfactors
      have hm := (stage_pos ht hsize).2
      have hroot : (ζ ^ fstride) ^ (p * m) = 1 := by
        rw [← pow_mul, hsize, ht.root]
      -- what the array holds before the parts are combined
      have hparts : ∀ k, (if m = 1 then
            (List.range p).foldl (fun mem q =>
              update mem (Fout + q) (mem (f + q * (fstride * inStride)))) mem
          else
            (List.range p).foldl (fun mem q =>
              kfWork inStride st factors (fstride * p) (Fout + q * m)
                (f + q * (fstride * inStride)) mem) mem) k =
          if Fout ≤ k ∧ k < Fout + p * m then
            parts (ζ ^ fstride) p m f (fstride * inStride) mem (k - Fout)
          else mem k := by
        intro k
        by_cases hone : m = 1
        · subst hone
          rw [if_pos rfl, mul_one] at *
          rw [foldl_copy hapart]
          simp [parts, dft]
        · rw [if_neg hone] at *
          refine foldl_parts hm hapart (fun q G hpart k => ?_) mem k
          have hstep : p * (fstride * inStride) = fstride * p * inStride := by ring
          rw [hstep] at hpart ⊢
          rw [← pow_mul]
          exact ih hrest (by rw [← hsize]; ring) _ _ _ hpart k
      rw [kfWork]
      simp only [onSegment, kfBfly_combines ht hsize _ (k - Fout)]
      by_cases hbefore : k < Fout
      · rw [if_pos hbefore, hparts, if_neg (by omega), if_neg (by omega)]
      · rw [if_neg hbefore]
        by_cases hin : k - Fout < p * m
        · rw [if_pos hin, combined_parts hm hroot hparts, if_pos (by omega)]
        · rw [if_neg hin, Nat.add_sub_cancel' (by omega), hparts, if_neg (by omega),
            if_neg (by omega)]

/-! ## A transform -/

/-- The input lies outside of the array that the transform is stored into, which is the
temporary one when input and output begin at the same place. -/
def Buffers (n fin fout inStride tmpbuf : Nat) : Prop :=
  if fin = fout then Apart fin inStride tmpbuf n ∧ Apart tmpbuf 1 fout n
  else Apart fin inStride fout n

/-- What `kiss_fft_stride` stores, and which places it leaves as they are. -/
theorem kissFftStride_eq [CharZero K] (ht : Twiddles st ζ)
    (hfactors : Factors st.nfft st.factors) {fin fout inStride tmpbuf : Nat}
    (hbuffers : Buffers st.nfft fin fout inStride tmpbuf) (mem : Nat → Cpx K) :
    (∀ k < st.nfft, kissFftStride st fin fout inStride tmpbuf mem (fout + k) =
        dft ζ st.nfft (fun j => mem (fin + j * inStride)) k) ∧
      ∀ a, ¬ (fout ≤ a ∧ a < fout + st.nfft) →
        (fin = fout → ¬ (tmpbuf ≤ a ∧ a < tmpbuf + st.nfft)) →
        kissFftStride st fin fout inStride tmpbuf mem a = mem a := by
  have hwork := fun Fout hapart a =>
    kfWork_eq ht inStride hfactors (one_mul _) Fout fin mem hapart a
  simp only [one_mul, pow_one] at hwork
  unfold Buffers at hbuffers
  unfold kissFftStride memcpy
  by_cases hsame : fin = fout
  · rw [if_pos hsame] at hbuffers
    have hcopy := fun (mem : Nat → Cpx K) a => foldl_copy hbuffers.2 mem a
    simp only [mul_one] at hcopy
    simp only [if_pos hsame, hcopy, hwork tmpbuf hbuffers.1]
    constructor
    · intro k hk
      rw [if_pos (by omega), Nat.add_sub_cancel_left, if_pos (by omega), Nat.add_sub_cancel_left]
    · intro a hout htmp
      rw [if_neg hout, if_neg (htmp hsame)]
  · rw [if_neg hsame] at hbuffers
    simp only [if_neg hsame, hwork fout hbuffers]
    constructor
    · intro k hk
      rw [if_pos (by omega), Nat.add_sub_cancel_left]
    · intro a hout _
      rw [if_neg hout]

end Work

/-! ## The twiddles of `kiss_fft_alloc` -/

/-- `kf_cexp`. -/
noncomputable def kfCexp (phase : ℝ) : Cpx ℝ :=
  ⟨Real.cos phase, Real.sin phase⟩

/-- `kiss_fft_alloc` with memory of its own. -/
noncomputable def kissFftAlloc (nfft : Nat) (inverseFft : Bool) : Option (Cfg ℝ) := do
  let factors ← kfFactor nfft
  some
    { nfft := nfft
      inverse := inverseFft
      factors := factors
      twiddles := fun i =>
        let phase := -2 * Real.pi * i / nfft
        let phase := if inverseFft then phase * -1 else phase
        kfCexp phase }

@[simp] theorem kfCexp_r (phase : ℝ) : (kfCexp phase).r = Real.cos phase := rfl
@[simp] theorem kfCexp_i (phase : ℝ) : (kfCexp phase).i = Real.sin phase := rfl

/-- A power of a phase factor multiplies the phase. -/
theorem kfCexp_pow (phase : ℝ) (i : Nat) : kfCexp phase ^ i = kfCexp (i * phase) := by
  induction i with
  | zero => ext <;> simp
  | succ i ih =>
      rw [pow_succ, ih, Nat.cast_succ, add_mul, one_mul]
      ext
      · simp [Real.cos_add]
      · simp [Real.sin_add]
        ring

/-- A phase factor has absolute value one. -/
theorem kfCexp_mul_conj (phase : ℝ) : kfCexp phase * (kfCexp phase).conj = 1 := by
  ext
  · simp [← sq]
  · simp
    ring

/-- The sign of the phases. -/
def sense (inverse : Bool) : ℝ :=
  if inverse then 1 else -1

/-- The root of unity that the twiddles are powers of. -/
noncomputable def base (n : Nat) (inverse : Bool) : Cpx ℝ :=
  kfCexp (sense inverse * (2 * Real.pi / n))

/-- The powers of a root of unity sum up to zero, unless it is one. -/
theorem sum_pow_eq_zero {ω : Cpx ℝ} {n : Nat} (hroot : ω ^ n = 1) (hne : ω.r ≠ 1) :
    ∑ j ∈ range n, ω ^ j = 0 := by
  have hmul : (ω - 1).conj * ((ω - 1) * ∑ j ∈ range n, ω ^ j) = 0 := by
    rw [mul_geom_sum, hroot, sub_self, mul_zero]
  generalize ∑ j ∈ range n, ω ^ j = s at hmul
  have hnorm : (ω.r - 1) ^ 2 + ω.i ^ 2 ≠ 0 := by
    have hsq : 0 < (ω.r - 1) ^ 2 := by
      have := sub_ne_zero.mpr hne
      positivity
    positivity
  have hr := congrArg Cpx.r hmul
  have hi := congrArg Cpx.i hmul
  simp at hr hi
  ext
  · apply (mul_eq_zero.mp _).resolve_left hnorm
    linear_combination hr
  · apply (mul_eq_zero.mp _).resolve_left hnorm
    linear_combination hi

/-- The powers of the base that divide the circle. -/
theorem base_pow_of_mul {n c d : Nat} (hn : 0 < n) (hd : c * d = n) (inverse : Bool) :
    base n inverse ^ d = kfCexp (sense inverse * (2 * Real.pi / c)) := by
  have hn' : (n : ℝ) ≠ 0 := by positivity
  have hcd : (c : ℝ) * d = n := by exact_mod_cast hd
  have hc : (c : ℝ) ≠ 0 := by
    rintro h
    rw [h, zero_mul] at hcd
    exact hn' hcd.symm
  unfold base
  rw [kfCexp_pow]
  congr 1
  field_simp
  linear_combination sense inverse * hcd

/-- A power of the base in between is not one. -/
theorem base_pow_ne {n d : Nat} (hd : 0 < d) (hlt : d < n) (inverse : Bool) :
    (base n inverse ^ d).r ≠ 1 := by
  have hn : (0 : ℝ) < n := by
    have : 0 < n := by omega
    exact_mod_cast this
  have hd' : (0 : ℝ) < d := by exact_mod_cast hd
  have hlt' : (d : ℝ) < n := by exact_mod_cast hlt
  have hpi := Real.pi_pos
  have hcos : (base n inverse ^ d).r = Real.cos (d * (2 * Real.pi / n)) := by
    unfold base sense
    rw [kfCexp_pow, kfCexp_r]
    cases inverse
    · rw [← Real.cos_neg]
      congr 1
      simp
    · simp
  have hless : d * (2 * Real.pi / n) < 2 * Real.pi := by
    calc d * (2 * Real.pi / n) = 2 * Real.pi * (d / n) := by ring
      _ < 2 * Real.pi * 1 := by
          apply mul_lt_mul_of_pos_left _ (by positivity)
          exact (div_lt_one hn).mpr hlt'
      _ = 2 * Real.pi := mul_one _
  have hmore : 0 < d * (2 * Real.pi / n) := by positivity
  rw [hcos]
  intro h
  have hzero := (Real.cos_eq_one_iff_of_lt_of_lt (by linarith) hless).mp h
  linarith

/-- The base of the twiddles is a root of unity. -/
theorem base_pow_self {n : Nat} (hn : 0 < n) (inverse : Bool) : base n inverse ^ n = 1 := by
  rw [base_pow_of_mul hn (one_mul n)]
  cases inverse <;> ext <;> simp [sense]

/-- The twiddles of `kiss_fft_alloc` fit to the sense of the transform. -/
theorem twiddles_kissFftAlloc {n : Nat} (hn : 0 < n) {inverse : Bool} {st : Cfg ℝ}
    (halloc : kissFftAlloc n inverse = some st) :
    st.nfft = n ∧ Factors n st.factors ∧ Twiddles st (base n inverse) := by
  obtain ⟨factors, hfactor, hfactors, -⟩ := factors_kfFactor hn
  simp only [kissFftAlloc, hfactor, Option.bind_eq_bind, Option.bind_some,
    Option.some.injEq] at halloc
  subst halloc
  refine ⟨rfl, hfactors, hn, ?_, base_pow_self hn inverse, kfCexp_mul_conj _, ?_, ?_, ?_⟩
  · intro i _
    simp only [base, kfCexp_pow, sense]
    congr 1
    cases inverse <;> simp <;> ring
  · intro d (hd : 2 * d = n)
    rw [base_pow_of_mul hn hd]
    ext <;> cases inverse <;> simp [sense, mul_div_cancel_left₀]
  · intro d (hd : 3 * d = n)
    have hroot : (base n inverse ^ d) ^ 3 = 1 := by
      rw [← pow_mul, mul_comm, hd, base_pow_self hn]
    have hsum := sum_pow_eq_zero hroot (base_pow_ne (by omega) (by omega) inverse)
    simpa [sum_range_succ, mul_comm, pow_mul] using hsum
  · intro d (hd : 4 * d = n)
    have hquarter : 2 * Real.pi / (4 : Nat) = Real.pi / 2 := by
      push_cast
      ring
    rw [base_pow_of_mul hn hd, hquarter]
    ext <;> cases inverse <;> simp [sense]

/-- A transform with the base, written out. -/
theorem dft_base (n : Nat) (inverse : Bool) (x : Nat → Cpx ℝ) (k : Nat) :
    dft (base n inverse) n x k =
      ∑ j ∈ range n, x j * kfCexp (sense inverse * (2 * Real.pi * (j * k) / n)) := by
  apply sum_congr rfl
  intro j _
  rw [base, kfCexp_pow, Nat.cast_mul]
  congr 2
  ring

/-- A configuration exists for every positive length. -/
theorem exists_kissFftAlloc {n : Nat} (hn : 0 < n) (inverse : Bool) :
    ∃ st, kissFftAlloc n inverse = some st ∧ 2 ^ st.factors.length ≤ 2 * n := by
  obtain ⟨factors, hfactor, -, hlength⟩ := factors_kfFactor hn
  exact ⟨_, by rw [kissFftAlloc, hfactor]; rfl, hlength⟩

/-! ## What a user of the transform gets -/

/-- For every positive length, both senses and every stride, in place or not: the output
is the discrete Fourier transform of the input, and no other place is changed, except
for those of the temporary array. -/
theorem kissFftStride_dft {n : Nat} (hn : 0 < n) (inverse : Bool) :
    ∃ st, kissFftAlloc n inverse = some st ∧
      (n < 0x80000000 → st.factors.length ≤ MAXFACTORS) ∧
      ∀ fin fout inStride tmpbuf mem, Buffers n fin fout inStride tmpbuf →
        (∀ k < n, kissFftStride st fin fout inStride tmpbuf mem (fout + k) =
          ∑ j ∈ range n, mem (fin + j * inStride) *
            kfCexp (sense inverse * (2 * Real.pi * (j * k) / n))) ∧
        ∀ a, ¬ (fout ≤ a ∧ a < fout + n) → (fin = fout → ¬ (tmpbuf ≤ a ∧ a < tmpbuf + n)) →
          kissFftStride st fin fout inStride tmpbuf mem a = mem a := by
  obtain ⟨st, halloc, hlength⟩ := exists_kissFftAlloc hn inverse
  obtain ⟨rfl, hfactors, ht⟩ := twiddles_kissFftAlloc hn halloc
  refine ⟨st, halloc, fun hint => length_kfFactor_le hint hlength, ?_⟩
  intro fin fout inStride tmpbuf mem hbuffers
  obtain ⟨hstored, hother⟩ := kissFftStride_eq ht hfactors hbuffers mem
  exact ⟨fun k hk => (hstored k hk).trans (dft_base _ inverse _ k), hother⟩

/-- A transform of sixty numbers in place. -/
theorem kissFftStride_dft_sixty :
    ∃ st, kissFftAlloc 60 false = some st ∧ ∀ mem, ∀ k < 60,
      kissFftStride st 0 0 1 60 mem (0 + k) =
        ∑ j ∈ range 60, mem (0 + j * 1) *
          kfCexp (sense false * (2 * Real.pi * (j * k) / (60 : Nat))) := by
  obtain ⟨st, halloc, -, htransform⟩ := kissFftStride_dft (by decide : 0 < 60) false
  have hbuffers : Buffers 60 0 0 1 60 := by
    rw [Buffers, if_pos rfl]
    constructor <;> intro i hi <;> omega
  exact ⟨st, halloc, fun mem => (htransform 0 0 1 60 mem hbuffers).1⟩

/-- The inverse of a transform, and the transform of an inverse, are the input times its
length. -/
theorem kissFft_kissFft {n : Nat} (hn : 0 < n) (inverse : Bool) :
    ∃ cfg cfg', kissFftAlloc n inverse = some cfg ∧ kissFftAlloc n (!inverse) = some cfg' ∧
      ∀ fin mid fout tmpbuf tmpbuf' mem, Buffers n fin mid 1 tmpbuf →
        Buffers n mid fout 1 tmpbuf' → ∀ k < n,
        kissFft cfg' mid fout tmpbuf' (kissFft cfg fin mid tmpbuf mem) (fout + k) =
          C_MULBYSCALAR (mem (fin + k)) n := by
  obtain ⟨cfg, halloc, -⟩ := exists_kissFftAlloc hn inverse
  obtain ⟨cfg', halloc', -⟩ := exists_kissFftAlloc hn (!inverse)
  obtain ⟨hnfft, hfactors, ht⟩ := twiddles_kissFftAlloc hn halloc
  obtain ⟨hnfft', hfactors', ht'⟩ := twiddles_kissFftAlloc hn halloc'
  refine ⟨cfg, cfg', halloc, halloc', ?_⟩
  intro fin mid fout tmpbuf tmpbuf' mem hbuffers hbuffers' k hk
  rw [← hnfft] at hfactors hbuffers
  rw [← hnfft'] at hfactors' hbuffers'
  have hfirst := (kissFftStride_eq ht hfactors hbuffers mem).1
  have hsecond := (kissFftStride_eq ht' hfactors' hbuffers'
    (kissFftStride cfg fin mid 1 tmpbuf mem)).1 k (by omega)
  unfold kissFft
  rw [hsecond, hnfft']
  rw [hnfft] at hfirst
  simp only [mul_one] at hfirst ⊢
  rw [dft_congr hfirst]
  have hinv : base n inverse * base n (!inverse) = 1 := by
    have hconj : base n (!inverse) = (base n inverse).conj := by
      ext <;> cases inverse <;> simp [base, sense]
    rw [hconj]
    exact kfCexp_mul_conj _
  rw [dft_dft hinv (base_pow_self hn inverse) _ _ hk]
  · ext <;> simp [C_MULBYSCALAR, mul_comm]
  · intro d hd hlt
    refine sum_pow_eq_zero ?_ (base_pow_ne hd hlt inverse)
    rw [← pow_mul, mul_comm, pow_mul, base_pow_self hn, one_pow]

/-- Sixty numbers, transformed to another array and back. -/
theorem kissFft_kissFft_sixty :
    ∃ cfg cfg', kissFftAlloc 60 false = some cfg ∧ kissFftAlloc 60 true = some cfg' ∧
      ∀ mem, ∀ k < 60, kissFft cfg' 60 0 0 (kissFft cfg 0 60 0 mem) (0 + k) =
        C_MULBYSCALAR (mem (0 + k)) (60 : Nat) := by
  obtain ⟨cfg, cfg', halloc, halloc', hinverse⟩ := kissFft_kissFft (by decide : 0 < 60) false
  have hthere : Buffers 60 0 60 1 0 := by
    rw [Buffers, if_neg (by decide)]
    intro i hi
    omega
  have hback : Buffers 60 60 0 1 0 := by
    rw [Buffers, if_neg (by decide)]
    intro i hi
    omega
  exact ⟨cfg, cfg', halloc, halloc', fun mem => hinverse 0 60 0 0 0 mem hthere hback⟩

end Fft
end Ls2kMorse
