import Ls2kMorse.Lib.Fourier
import Mathlib.Algebra.CharZero.Defs
import Mathlib.Algebra.Field.Basic
import Mathlib.Tactic.FieldSimp
import Mathlib.Tactic.IntervalCases
import Mathlib.Tactic.Linarith

/-!
# Butterflies of the Fourier transform

A stage of `kf_work` combines `p` transforms of length `m`, stored one behind the other,
column by column: a column are the places that are equal modulo `m`.  There are butterflies
for the radices 2, 3, 4 and 5, written with few multiplications, and a generic one.  The
scalars are exact numbers here, where the source has a type that is chosen at compile time.

Main results:

- Theorems `kfBfly2_combines`, `kfBfly3_combines`, `kfBfly4_combines`, `kfBfly5_combines`
  and `kfBflyGeneric_combines`: each of them combines the transforms of its columns.
-/

namespace Ls2kMorse
namespace Fft

open Finset Lib.Fourier

/-! ## Complex numbers -/

/-- `kiss_fft_cpx`. -/
@[ext]
structure Cpx (K : Type*) where
  r : K
  i : K
deriving DecidableEq

namespace Cpx

variable {K : Type*} [Field K]

instance : Zero (Cpx K) := ⟨⟨0, 0⟩⟩
instance : One (Cpx K) := ⟨⟨1, 0⟩⟩
instance : Neg (Cpx K) := ⟨fun a => ⟨-a.r, -a.i⟩⟩

/-- `C_ADD`. -/
instance : Add (Cpx K) := ⟨fun a b => ⟨a.r + b.r, a.i + b.i⟩⟩

/-- `C_SUB`. -/
instance : Sub (Cpx K) := ⟨fun a b => ⟨a.r - b.r, a.i - b.i⟩⟩

/-- `C_MUL`. -/
instance : Mul (Cpx K) := ⟨fun a b => ⟨a.r * b.r - a.i * b.i, a.r * b.i + a.i * b.r⟩⟩

@[simp] theorem zero_r : (0 : Cpx K).r = 0 := rfl
@[simp] theorem zero_i : (0 : Cpx K).i = 0 := rfl
@[simp] theorem one_r : (1 : Cpx K).r = 1 := rfl
@[simp] theorem one_i : (1 : Cpx K).i = 0 := rfl
@[simp] theorem neg_r (a : Cpx K) : (-a).r = -a.r := rfl
@[simp] theorem neg_i (a : Cpx K) : (-a).i = -a.i := rfl
@[simp] theorem add_r (a b : Cpx K) : (a + b).r = a.r + b.r := rfl
@[simp] theorem add_i (a b : Cpx K) : (a + b).i = a.i + b.i := rfl
@[simp] theorem sub_r (a b : Cpx K) : (a - b).r = a.r - b.r := rfl
@[simp] theorem sub_i (a b : Cpx K) : (a - b).i = a.i - b.i := rfl
@[simp] theorem mul_r (a b : Cpx K) : (a * b).r = a.r * b.r - a.i * b.i := rfl
@[simp] theorem mul_i (a b : Cpx K) : (a * b).i = a.r * b.i + a.i * b.r := rfl

instance : CommRing (Cpx K) where
  add_assoc a b c := by ext <;> simp [add_assoc]
  zero_add a := by ext <;> simp
  add_zero a := by ext <;> simp
  add_comm a b := by ext <;> simp [add_comm]
  neg_add_cancel a := by ext <;> simp
  sub_eq_add_neg a b := by ext <;> simp [sub_eq_add_neg]
  mul_assoc a b c := by ext <;> simp <;> ring
  one_mul a := by ext <;> simp
  mul_one a := by ext <;> simp
  mul_comm a b := by ext <;> simp <;> ring
  left_distrib a b c := by ext <;> simp <;> ring
  right_distrib a b c := by ext <;> simp <;> ring
  zero_mul a := by ext <;> simp
  mul_zero a := by ext <;> simp
  nsmul := nsmulRec
  zsmul := zsmulRec

@[simp] theorem natCast_r (n : Nat) : (n : Cpx K).r = n := by
  induction n with
  | zero => simp
  | succ n ih => simp [ih]

@[simp] theorem natCast_i (n : Nat) : (n : Cpx K).i = 0 := by
  induction n with
  | zero => simp
  | succ n ih => simp [ih]

/-- The conjugate. -/
def conj (a : Cpx K) : Cpx K :=
  ⟨a.r, -a.i⟩

@[simp] theorem conj_r (a : Cpx K) : a.conj.r = a.r := rfl
@[simp] theorem conj_i (a : Cpx K) : a.conj.i = -a.i := rfl

/-- Conjugation is multiplicative. -/
theorem conj_mul (a b : Cpx K) : (a * b).conj = a.conj * b.conj := by
  ext
  · simp
  · simp
    ring

/-- Conjugation commutes with powers. -/
theorem conj_pow (a : Cpx K) (n : Nat) : (a ^ n).conj = a.conj ^ n := by
  induction n with
  | zero => ext <;> simp
  | succ n ih => rw [pow_succ, conj_mul, ih, pow_succ]

end Cpx

variable {K : Type*} [Field K]

/-- `struct kiss_fft_state`. -/
structure Cfg (K : Type*) where
  nfft : Nat
  inverse : Bool
  factors : List (Nat × Nat)
  twiddles : Nat → Cpx K

/-- `HALF_OF`. -/
def HALF_OF (x : K) : K :=
  x * (1 / (2 : Nat))

/-- `C_MULBYSCALAR`. -/
def C_MULBYSCALAR (c : Cpx K) (s : K) : Cpx K :=
  ⟨c.r * s, c.i * s⟩

/-! ## The butterflies as the source computes them -/

open Function (update)

/-- One iteration of `kf_bfly2`, at the place `u`. -/
def bfly2Column (fstride : Nat) (st : Cfg K) (m u : Nat) (Fout : Nat → Cpx K) : Nat → Cpx K :=
  let t := Fout (u + m) * st.twiddles (u * fstride)
  let Fout := update Fout (u + m) (Fout u - t)
  update Fout u (Fout u + t)

/-- `kf_bfly2`: the butterflies of radix two, column by column. -/
def kfBfly2 (fstride : Nat) (st : Cfg K) (m : Nat) (Fout : Nat → Cpx K) : Nat → Cpx K :=
  (List.range m).foldl (fun Fout u => bfly2Column fstride st m u Fout) Fout

/-- One iteration of `kf_bfly4`. -/
def bfly4Column (fstride : Nat) (st : Cfg K) (m u : Nat) (Fout : Nat → Cpx K) : Nat → Cpx K :=
  let scratch0 := Fout (u + m) * st.twiddles (u * fstride)
  let scratch1 := Fout (u + 2 * m) * st.twiddles (u * (fstride * 2))
  let scratch2 := Fout (u + 3 * m) * st.twiddles (u * (fstride * 3))
  let scratch5 := Fout u - scratch1
  let Fout := update Fout u (Fout u + scratch1)
  let scratch3 := scratch0 + scratch2
  let scratch4 := scratch0 - scratch2
  let Fout := update Fout (u + 2 * m) (Fout u - scratch3)
  let Fout := update Fout u (Fout u + scratch3)
  if st.inverse then
    let Fout := update Fout (u + m) ⟨scratch5.r - scratch4.i, scratch5.i + scratch4.r⟩
    update Fout (u + 3 * m) ⟨scratch5.r + scratch4.i, scratch5.i - scratch4.r⟩
  else
    let Fout := update Fout (u + m) ⟨scratch5.r + scratch4.i, scratch5.i - scratch4.r⟩
    update Fout (u + 3 * m) ⟨scratch5.r - scratch4.i, scratch5.i + scratch4.r⟩

/-- `kf_bfly4`: the butterflies of radix four, column by column. -/
def kfBfly4 (fstride : Nat) (st : Cfg K) (m : Nat) (Fout : Nat → Cpx K) : Nat → Cpx K :=
  (List.range m).foldl (fun Fout u => bfly4Column fstride st m u Fout) Fout

/-- One iteration of `kf_bfly3`. -/
def bfly3Column (fstride : Nat) (st : Cfg K) (m u : Nat) (Fout : Nat → Cpx K) : Nat → Cpx K :=
  let epi3 := st.twiddles (fstride * m)
  let scratch1 := Fout (u + m) * st.twiddles (u * fstride)
  let scratch2 := Fout (u + 2 * m) * st.twiddles (u * (fstride * 2))
  let scratch3 := scratch1 + scratch2
  let scratch0 := scratch1 - scratch2
  let Fout := update Fout (u + m)
    ⟨(Fout u).r - HALF_OF scratch3.r, (Fout u).i - HALF_OF scratch3.i⟩
  let scratch0 := C_MULBYSCALAR scratch0 epi3.i
  let Fout := update Fout u (Fout u + scratch3)
  let Fout := update Fout (u + 2 * m)
    ⟨(Fout (u + m)).r + scratch0.i, (Fout (u + m)).i - scratch0.r⟩
  update Fout (u + m) ⟨(Fout (u + m)).r - scratch0.i, (Fout (u + m)).i + scratch0.r⟩

/-- `kf_bfly3`: the butterflies of radix three, column by column. -/
def kfBfly3 (fstride : Nat) (st : Cfg K) (m : Nat) (Fout : Nat → Cpx K) : Nat → Cpx K :=
  (List.range m).foldl (fun Fout u => bfly3Column fstride st m u Fout) Fout

/-- One iteration of `kf_bfly5`. -/
def bfly5Column (fstride : Nat) (st : Cfg K) (m u : Nat) (Fout : Nat → Cpx K) : Nat → Cpx K :=
  let ya := st.twiddles (fstride * m)
  let yb := st.twiddles (fstride * 2 * m)
  let scratch0 := Fout u
  let scratch1 := Fout (u + m) * st.twiddles (u * fstride)
  let scratch2 := Fout (u + 2 * m) * st.twiddles (2 * u * fstride)
  let scratch3 := Fout (u + 3 * m) * st.twiddles (3 * u * fstride)
  let scratch4 := Fout (u + 4 * m) * st.twiddles (4 * u * fstride)
  let scratch7 := scratch1 + scratch4
  let scratch10 := scratch1 - scratch4
  let scratch8 := scratch2 + scratch3
  let scratch9 := scratch2 - scratch3
  let Fout := update Fout u
    ⟨(Fout u).r + (scratch7.r + scratch8.r), (Fout u).i + (scratch7.i + scratch8.i)⟩
  let scratch5 : Cpx K :=
    ⟨scratch0.r + scratch7.r * ya.r + scratch8.r * yb.r,
      scratch0.i + scratch7.i * ya.r + scratch8.i * yb.r⟩
  let scratch6 : Cpx K :=
    ⟨scratch10.i * ya.i + scratch9.i * yb.i, -(scratch10.r * ya.i) - scratch9.r * yb.i⟩
  let Fout := update Fout (u + m) (scratch5 - scratch6)
  let Fout := update Fout (u + 4 * m) (scratch5 + scratch6)
  let scratch11 : Cpx K :=
    ⟨scratch0.r + scratch7.r * yb.r + scratch8.r * ya.r,
      scratch0.i + scratch7.i * yb.r + scratch8.i * ya.r⟩
  let scratch12 : Cpx K :=
    ⟨-(scratch10.i * yb.i) + scratch9.i * ya.i, scratch10.r * yb.i - scratch9.r * ya.i⟩
  let Fout := update Fout (u + 2 * m) (scratch11 + scratch12)
  update Fout (u + 3 * m) (scratch11 - scratch12)

/-- `kf_bfly5`: the butterflies of radix five, column by column. -/
def kfBfly5 (fstride : Nat) (st : Cfg K) (m : Nat) (Fout : Nat → Cpx K) : Nat → Cpx K :=
  (List.range m).foldl (fun Fout u => bfly5Column fstride st m u Fout) Fout

/-- The sum that `kf_bfly_generic` collects at the place `k`, and the index of the last
twiddle, after `q` additions. -/
def genericSum (fstride : Nat) (st : Cfg K) (scratch : Nat → Cpx K) (k : Nat) :
    Nat → Cpx K × Nat
  | 0 => (scratch 0, 0)
  | q + 1 =>
      let (sum, twidx) := genericSum fstride st scratch k q
      let twidx := twidx + fstride * k
      let twidx := if twidx ≥ st.nfft then twidx - st.nfft else twidx
      (sum + scratch (q + 1) * st.twiddles twidx, twidx)

/-- One iteration of the outer loop of `kf_bfly_generic`. -/
def genericColumn (fstride : Nat) (st : Cfg K) (m p u : Nat) (Fout : Nat → Cpx K) :
    Nat → Cpx K :=
  let scratch := fun q1 => Fout (u + q1 * m)
  (List.range p).foldl (fun Fout q1 =>
    update Fout (u + q1 * m) (genericSum fstride st scratch (u + q1 * m) (p - 1)).1) Fout

/-- `kf_bfly_generic`: the butterflies of any other radix `p`, column by column. -/
def kfBflyGeneric (fstride : Nat) (st : Cfg K) (m p : Nat) (Fout : Nat → Cpx K) :
    Nat → Cpx K :=
  (List.range m).foldl (fun Fout u => genericColumn fstride st m p u Fout) Fout

/-! ## What a butterfly is for -/

/-- The place `k` of `p` combined transforms of length `m`, from those of its column. -/
def combined (ω : Cpx K) (p m : Nat) (Fout : Nat → Cpx K) (k : Nat) : Cpx K :=
  ∑ q ∈ range p, Fout (k % m + q * m) * ω ^ (q * k)

/-- All places of the `p` transforms are combined, and no other place is changed. -/
def Combines (ω : Cpx K) (p m : Nat) (bfly : (Nat → Cpx K) → Nat → Cpx K) : Prop :=
  ∀ Fout k, bfly Fout k = if k < p * m then combined ω p m Fout k else Fout k

/-- The twiddles are powers of a root of unity of the sense of the transform. -/
structure Twiddles (st : Cfg K) (ζ : Cpx K) : Prop where
  pos : 0 < st.nfft
  pow : ∀ i < st.nfft, st.twiddles i = ζ ^ i
  root : ζ ^ st.nfft = 1
  unit : ζ * ζ.conj = 1
  half : ∀ d, 2 * d = st.nfft → ζ ^ d = -1
  third : ∀ d, 3 * d = st.nfft → 1 + ζ ^ d + ζ ^ (2 * d) = 0
  quarter : ∀ d, 4 * d = st.nfft → ζ ^ d = if st.inverse then ⟨0, 1⟩ else ⟨0, -1⟩

/-- The places of a column. -/
theorem column_iff {p m u k : Nat} (hu : u < m) :
    k % m = u ∧ k < p * m ↔ ∃ q1 < p, k = u + q1 * m := by
  constructor
  · rintro ⟨hmod, hlt⟩
    refine ⟨k / m, (Nat.div_lt_iff_lt_mul (by omega)).mpr hlt, ?_⟩
    rw [← hmod, Nat.mul_comm]
    exact (Nat.mod_add_div k m).symm
  · rintro ⟨q1, hq1, rfl⟩
    refine ⟨by rw [Nat.add_mul_mod_self_right, Nat.mod_eq_of_lt hu], ?_⟩
    calc u + q1 * m < m + q1 * m := Nat.add_lt_add_right hu _
      _ = (q1 + 1) * m := by ring
      _ ≤ p * m := Nat.mul_le_mul_right m hq1

/-- A loop that combines the places of one column in each step. -/
theorem combines_of_columns {ω : Cpx K} {p m : Nat} (hm : 0 < m)
    {column : Nat → (Nat → Cpx K) → Nat → Cpx K}
    (hrows : ∀ u < m, ∀ Fout, ∀ q1 < p, column u Fout (u + q1 * m) =
      ∑ q ∈ range p, Fout (u + q * m) * (ω ^ u) ^ q * ((ω ^ m) ^ q1) ^ q)
    (hother : ∀ u < m, ∀ Fout k, (∀ q1 < p, k ≠ u + q1 * m) → column u Fout k = Fout k) :
    Combines ω p m fun Fout => (List.range m).foldl (fun Fout u => column u Fout) Fout := by
  intro Fout k
  have hbody : ∀ u < m, ∀ Fout k, column u Fout k =
      if k % m = u ∧ k < p * m then combined ω p m Fout k else Fout k := by
    intro u hu Fout k
    by_cases hcolumn : k % m = u ∧ k < p * m
    · obtain ⟨q1, hq1, rfl⟩ := (column_iff hu).mp hcolumn
      rw [if_pos hcolumn, hrows u hu Fout q1 hq1, combined, hcolumn.1]
      apply sum_congr rfl
      intro q _
      rw [mul_assoc, ← pow_mul, ← pow_mul, ← pow_mul, ← pow_add]
      congr 2
      ring
    · rw [if_neg hcolumn]
      apply hother u hu
      intro q1 hq1 hk
      exact hcolumn ((column_iff hu).mpr ⟨q1, hq1, hk⟩)
  have hvalue : ∀ (F G : Nat → Cpx K) (k : Nat), (∀ i, i % m = k % m → F i = G i) →
      combined ω p m F k = combined ω p m G k := by
    intro F G k h
    apply sum_congr rfl
    intro q _
    rw [h (k % m + q * m) (by simp)]
  calc (List.range m).foldl (fun Fout u => column u Fout) Fout k
      = if k % m < m ∧ k < p * m then combined ω p m Fout k else Fout k :=
        foldl_columns hbody hvalue Fout (Nat.le_refl m) k
    _ = if k < p * m then combined ω p m Fout k else Fout k := by simp [Nat.mod_lt k hm]

section Stage

variable {st : Cfg K} {ζ : Cpx K} {fstride p m : Nat}

/-- No factor of the length is zero. -/
theorem stage_pos (ht : Twiddles st ζ) (hsize : fstride * (p * m) = st.nfft) :
    0 < fstride ∧ 0 < m := by
  have hpos := ht.pos
  rw [← hsize] at hpos
  exact ⟨Nat.pos_of_mul_pos_right hpos, Nat.pos_of_mul_pos_left (Nat.pos_of_mul_pos_left hpos)⟩

/-- The twiddle that a butterfly takes for the row `q` of the column `u`. -/
theorem twiddle_eq (ht : Twiddles st ζ) (hsize : fstride * (p * m) = st.nfft) {u : Nat}
    (hu : u < m) (q : Nat) (hq : q < p) {i : Nat} (hi : i = q * u * fstride) :
    st.twiddles i = ((ζ ^ fstride) ^ u) ^ q := by
  have hstride := (stage_pos ht hsize).1
  have hlt : i < st.nfft := by
    rw [hi, ← hsize, Nat.mul_comm]
    exact Nat.mul_lt_mul_of_pos_left (Nat.mul_lt_mul'' hq hu) hstride
  rw [ht.pow i hlt, hi, ← pow_mul, ← pow_mul]
  congr 1
  ring

/-- `kf_bfly2` combines two transforms. -/
theorem kfBfly2_combines (ht : Twiddles st ζ) (hsize : fstride * (2 * m) = st.nfft) :
    Combines (ζ ^ fstride) 2 m (kfBfly2 fstride st m) := by
  have hm := (stage_pos ht hsize).2
  have hη : (ζ ^ fstride) ^ m = -1 := by
    rw [← pow_mul]
    exact ht.half _ (by rw [← hsize]; ring)
  refine combines_of_columns hm (fun u hu Fout q1 hq1 => ?_) (fun u hu Fout k hk => ?_)
  · have htw := twiddle_eq ht hsize hu 1 (by decide) (i := u * fstride) (by ring)
    simp only [bfly2Column, htw, hη, sum_range_succ, sum_range_zero]
    interval_cases q1 <;> simp only [zero_mul, one_mul, add_zero] <;>
      simp (disch := omega) only [Function.update_of_ne, Function.update_self]
    all_goals ring
  · have h0 := hk 0 (by decide)
    have h1 := hk 1 (by decide)
    simp (disch := omega) only [bfly2Column, Function.update_of_ne]

/-- `kf_bfly4` combines four transforms. -/
theorem kfBfly4_combines (ht : Twiddles st ζ) (hsize : fstride * (4 * m) = st.nfft) :
    Combines (ζ ^ fstride) 4 m (kfBfly4 fstride st m) := by
  have hm := (stage_pos ht hsize).2
  have hη : (ζ ^ fstride) ^ m = if st.inverse then ⟨0, 1⟩ else ⟨0, -1⟩ := by
    rw [← pow_mul]
    exact ht.quarter _ (by rw [← hsize]; ring)
  refine combines_of_columns hm (fun u hu Fout q1 hq1 => ?_) (fun u hu Fout k hk => ?_)
  · have htw1 := twiddle_eq ht hsize hu 1 (by decide) (i := u * fstride) (by ring)
    have htw2 := twiddle_eq ht hsize hu 2 (by decide) (i := u * (fstride * 2)) (by ring)
    have htw3 := twiddle_eq ht hsize hu 3 (by decide) (i := u * (fstride * 3)) (by ring)
    simp only [bfly4Column, htw1, htw2, htw3, hη, sum_range_succ, sum_range_zero]
    generalize (ζ ^ fstride) ^ u = w
    have h0 : u + 0 * m = u := by simp
    have h1 : u + 1 * m = u + m := by simp
    simp only [h0, h1]
    generalize Fout (u + m) * w ^ 1 = b
    generalize Fout (u + 2 * m) * w ^ 2 = c
    generalize Fout (u + 3 * m) * w ^ 3 = d
    interval_cases q1 <;> cases st.inverse <;>
      simp (disch := omega) only [h0, h1, Bool.false_eq_true, if_true, if_false,
        Function.update_of_ne, Function.update_self]
    all_goals
      ext <;> simp [pow_succ] <;> ring
  · have h0 := hk 0 (by decide)
    have h1 := hk 1 (by decide)
    have h2 := hk 2 (by decide)
    have h3 := hk 3 (by decide)
    unfold bfly4Column
    cases st.inverse <;>
      simp (disch := omega) only [Bool.false_eq_true, if_true, if_false, Function.update_of_ne]

/-- A power of a root of unity of length one, counted from its end. -/
theorem pow_sub_eq_conj {η : Cpx K} (hunit : η * η.conj = 1) {n : Nat} (hroot : η ^ n = 1)
    {j : Nat} (hj : j ≤ n) : η ^ (n - j) = (η ^ j).conj := by
  calc η ^ (n - j) = η ^ (n - j) * (η * η.conj) ^ j := by rw [hunit, one_pow, mul_one]
    _ = η ^ n * η.conj ^ j := by
        rw [mul_pow, ← mul_assoc, ← pow_add, Nat.sub_add_cancel hj]
    _ = (η ^ j).conj := by rw [hroot, one_mul, Cpx.conj_pow]

/-- The base of a stage, taken to the length of its parts. -/
theorem stage_root (ht : Twiddles st ζ) (hsize : fstride * (p * m) = st.nfft) :
    ((ζ ^ fstride) ^ m) ^ p = 1 ∧
      (ζ ^ fstride) ^ m * ((ζ ^ fstride) ^ m).conj = 1 := by
  constructor
  · rw [← pow_mul, ← pow_mul, ← ht.root, ← hsize]
    congr 1
    ring
  · rw [← pow_mul, Cpx.conj_pow, ← mul_pow, ht.unit, one_pow]

/-- A twiddle that a butterfly takes for all columns. -/
theorem twiddle_row (ht : Twiddles st ζ) (hsize : fstride * (p * m) = st.nfft) (q : Nat)
    (hq : q < p) {i : Nat} (hi : i = fstride * q * m) :
    st.twiddles i = ((ζ ^ fstride) ^ m) ^ q := by
  obtain ⟨hstride, hm⟩ := stage_pos ht hsize
  have hlt : i < st.nfft := by
    rw [hi, ← hsize, Nat.mul_assoc]
    exact Nat.mul_lt_mul_of_pos_left (Nat.mul_lt_mul_of_pos_right hq hm) hstride
  rw [ht.pow i hlt, hi, ← pow_mul, ← pow_mul]
  congr 1
  ring

/-- `kf_bfly3` combines three transforms. -/
theorem kfBfly3_combines [CharZero K] (ht : Twiddles st ζ)
    (hsize : fstride * (3 * m) = st.nfft) :
    Combines (ζ ^ fstride) 3 m (kfBfly3 fstride st m) := by
  have hm := (stage_pos ht hsize).2
  obtain ⟨hroot, hunit⟩ := stage_root ht hsize
  have hepi := twiddle_row ht hsize 1 (by decide) (i := fstride * m) (by ring)
  have hthird : 1 + (ζ ^ fstride) ^ m + ((ζ ^ fstride) ^ m) ^ 2 = 0 := by
    rw [← pow_mul, ← pow_mul, mul_comm _ 2]
    exact ht.third _ (by rw [← hsize]; ring)
  refine combines_of_columns hm (fun u hu Fout q1 hq1 => ?_) (fun u hu Fout k hk => ?_)
  · have htw1 := twiddle_eq ht hsize hu 1 (by decide) (i := u * fstride) (by ring)
    have htw2 := twiddle_eq ht hsize hu 2 (by decide) (i := u * (fstride * 2)) (by ring)
    simp only [bfly3Column, htw1, htw2, hepi, sum_range_succ, sum_range_zero]
    generalize (ζ ^ fstride) ^ u = w
    generalize (ζ ^ fstride) ^ m = η at hroot hunit hthird
    have hsquare : η ^ 2 = η.conj := by
      simpa using pow_sub_eq_conj hunit hroot (j := 1) (by decide)
    have hfourth : η.conj ^ 2 = η := by
      rw [← hsquare, ← pow_mul, show 2 * 2 = 3 + 1 by rfl, pow_add, hroot, one_mul, pow_one]
    have hr : η.r = -(1 / 2) := by
      rw [hsquare] at hthird
      have hreal := congrArg Cpx.r hthird
      simp only [Cpx.add_r, Cpx.one_r, Cpx.conj_r, Cpx.zero_r] at hreal
      linear_combination hreal / 2
    have h0 : u + 0 * m = u := by simp
    have h1 : u + 1 * m = u + m := by simp
    simp only [h0, h1]
    generalize Fout (u + m) * w ^ 1 = b
    generalize Fout (u + 2 * m) * w ^ 2 = c
    interval_cases q1 <;>
      simp (disch := omega) only [h0, h1, Function.update_of_ne, Function.update_self]
    all_goals
      simp only [pow_zero, pow_one, one_pow, hsquare, hfourth]
      ext <;> simp [HALF_OF, C_MULBYSCALAR, hr] <;> ring
  · have h0 := hk 0 (by decide)
    have h1 := hk 1 (by decide)
    have h2 := hk 2 (by decide)
    simp (disch := omega) only [bfly3Column, Function.update_of_ne]

/-- `kf_bfly5` combines five transforms. -/
theorem kfBfly5_combines (ht : Twiddles st ζ) (hsize : fstride * (5 * m) = st.nfft) :
    Combines (ζ ^ fstride) 5 m (kfBfly5 fstride st m) := by
  have hm := (stage_pos ht hsize).2
  obtain ⟨hroot, hunit⟩ := stage_root ht hsize
  have hya := twiddle_row ht hsize 1 (by decide) (i := fstride * m) (by ring)
  have hyb := twiddle_row ht hsize 2 (by decide) (i := fstride * 2 * m) (by ring)
  refine combines_of_columns hm (fun u hu Fout q1 hq1 => ?_) (fun u hu Fout k hk => ?_)
  · have htw1 := twiddle_eq ht hsize hu 1 (by decide) (i := u * fstride) (by ring)
    have htw2 := twiddle_eq ht hsize hu 2 (by decide) (i := 2 * u * fstride) (by ring)
    have htw3 := twiddle_eq ht hsize hu 3 (by decide) (i := 3 * u * fstride) (by ring)
    have htw4 := twiddle_eq ht hsize hu 4 (by decide) (i := 4 * u * fstride) (by ring)
    simp only [bfly5Column, htw1, htw2, htw3, htw4, hya, hyb, sum_range_succ, sum_range_zero]
    generalize (ζ ^ fstride) ^ u = w
    generalize (ζ ^ fstride) ^ m = η at hroot hunit
    have hthree : η ^ 3 = (η ^ 2).conj := pow_sub_eq_conj hunit hroot (j := 2) (by decide)
    have hfour : η ^ 4 = η.conj := by
      simpa using pow_sub_eq_conj hunit hroot (j := 1) (by decide)
    -- The exponents count modulo five.
    have hpow : ∀ i, η ^ i = η ^ (i % 5) := fun i => pow_eq_pow_mod i hroot
    have h6 : η ^ 6 = η := by simpa using hpow 6
    have h8 : η ^ 8 = (η ^ 2).conj := (hpow 8).trans hthree
    have h9 : η ^ 9 = η.conj := (hpow 9).trans hfour
    have h12 : η ^ 12 = η ^ 2 := hpow 12
    have h16 : η ^ 16 = η := by simpa using hpow 16
    have h0 : u + 0 * m = u := by simp
    have h1 : u + 1 * m = u + m := by simp
    simp only [h0, h1]
    generalize Fout (u + m) * w ^ 1 = b
    generalize Fout (u + 2 * m) * w ^ 2 = c
    generalize Fout (u + 3 * m) * w ^ 3 = d
    generalize Fout (u + 4 * m) * w ^ 4 = e
    interval_cases q1 <;>
      simp (disch := omega) only [h0, h1, Function.update_of_ne, Function.update_self]
    all_goals
      simp only [← pow_mul, Nat.reduceMul]
      simp only [pow_zero, pow_one, hthree, hfour, h6, h8, h9, h12, h16]
      generalize η ^ 2 = θ
      ext <;> simp <;> ring
  · have h0 := hk 0 (by decide)
    have h1 := hk 1 (by decide)
    have h2 := hk 2 (by decide)
    have h3 := hk 3 (by decide)
    have h4 := hk 4 (by decide)
    simp (disch := omega) only [bfly5Column, Function.update_of_ne]

/-- The inner loop of `kf_bfly_generic` keeps the index of its twiddle reduced. -/
theorem genericSum_eq (ht : Twiddles st ζ) (scratch : Nat → Cpx K) {k : Nat}
    (hk : fstride * k < st.nfft) (q : Nat) :
    genericSum fstride st scratch k q =
      (∑ i ∈ range (q + 1), scratch i * (ζ ^ fstride) ^ (i * k),
        q * (fstride * k) % st.nfft) := by
  induction q with
  | zero => simp [genericSum]
  | succ q ih =>
      have hindex : (if q * (fstride * k) % st.nfft + fstride * k ≥ st.nfft
          then q * (fstride * k) % st.nfft + fstride * k - st.nfft
          else q * (fstride * k) % st.nfft + fstride * k) =
          (q + 1) * (fstride * k) % st.nfft := by
        have hlt := Nat.mod_lt (q * (fstride * k)) ht.pos
        rw [Nat.succ_mul, Nat.add_mod, Nat.mod_eq_of_lt hk]
        split_ifs with hlarge
        · rw [Nat.mod_eq_sub_mod hlarge]
          exact (Nat.mod_eq_of_lt (by omega)).symm
        · exact (Nat.mod_eq_of_lt (by omega)).symm
      have htwiddle : st.twiddles ((q + 1) * (fstride * k) % st.nfft) =
          (ζ ^ fstride) ^ ((q + 1) * k) := by
        rw [ht.pow _ (Nat.mod_lt _ ht.pos), ← pow_eq_pow_mod _ ht.root, ← pow_mul]
        congr 1
        ring
      simp only [genericSum, ih, hindex, htwiddle]
      rw [sum_range_succ _ (q + 1)]

/-- `kf_bfly_generic` combines any number of transforms. -/
theorem kfBflyGeneric_combines (ht : Twiddles st ζ) (hsize : fstride * (p * m) = st.nfft) :
    Combines (ζ ^ fstride) p m (kfBflyGeneric fstride st m p) := by
  obtain ⟨hstride, hm⟩ := stage_pos ht hsize
  have hplace : ∀ u, Function.Injective fun q1 => u + q1 * m := by
    intro u a b hab
    exact Nat.eq_of_mul_eq_mul_right hm (Nat.add_left_cancel hab)
  refine combines_of_columns hm (fun u hu Fout q1 hq1 => ?_) (fun u hu Fout k hk => ?_)
  · have hlt : fstride * (u + q1 * m) < st.nfft := by
      rw [← hsize]
      exact Nat.mul_lt_mul_of_pos_left ((column_iff hu).mpr ⟨q1, hq1, rfl⟩).2 hstride
    have hstored := (foldl_update (hplace u)
      (fun q1 => (genericSum fstride st (fun q1 => Fout (u + q1 * m)) (u + q1 * m) (p - 1)).1)
      Fout p (u + q1 * m)).1 q1 hq1 rfl
    unfold genericColumn
    rw [hstored, genericSum_eq ht _ hlt]
    simp only [Nat.sub_add_cancel (show 1 ≤ p by omega)]
    generalize ζ ^ fstride = ω
    apply sum_congr rfl
    intro q _
    rw [mul_assoc, ← pow_mul, ← pow_mul, ← pow_mul, ← pow_add]
    congr 2
    ring
  · exact (foldl_update (hplace u) _ Fout p k).2 hk

end Stage

end Fft
end Ls2kMorse
