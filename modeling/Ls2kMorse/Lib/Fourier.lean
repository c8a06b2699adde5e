import Mathlib.Algebra.BigOperators.Intervals
import Mathlib.Algebra.Ring.GeomSum
import Mathlib.Data.List.Range
import Mathlib.Tactic.Ring
import Mathlib.Tactic.LinearCombination

/-!
# Discrete Fourier transforms and loops over columns

A discrete Fourier transform of a composite length is made of transforms of the input
taken in steps, combined column by column.  Programs store the parts one behind the other
and combine them in place, one column of the array after another.

Main results:

- Theorem `dft_decimate`: a transform of length `p * m` from `p` transforms of length `m`.
- Theorem `dft_repeat`: a transform of an input that repeats.
- Theorem `dft_dft`: the transform with the inverse base undoes a transform.
- Theorem `foldl_columns`: a loop whose steps change a column each.
- Theorems `foldl_segments` and `foldl_copy`: loops whose steps fill a segment or a place
  each.
-/

namespace Ls2kMorse
namespace Lib
namespace Fourier

open Finset

/-! ## Transforms -/

section Transform

variable {R : Type*} [CommRing R]

/-- The discrete Fourier transform of length `n` with a base. -/
def dft (ω : R) (n : Nat) (x : Nat → R) (k : Nat) : R :=
  ∑ j ∈ range n, x j * ω ^ (j * k)

/-- A transform depends on its `n` inputs only. -/
theorem dft_congr {ω : R} {n : Nat} {x y : Nat → R} (h : ∀ j < n, x j = y j) (k : Nat) :
    dft ω n x k = dft ω n y k :=
  sum_congr rfl fun j hj => by rw [h j (mem_range.mp hj)]

/-- A sum in steps of `p`. -/
theorem sum_range_steps (p m : Nat) (g : Nat → R) :
    ∑ i ∈ range (p * m), g i = ∑ q ∈ range p, ∑ j ∈ range m, g (p * j + q) := by
  induction m with
  | zero => simp
  | succ m ih =>
      rw [Nat.mul_succ, sum_range_add, ih, ← sum_add_distrib]
      apply sum_congr rfl
      intro q _
      rw [sum_range_succ]

/-- With a root of unity as the base, exponents count modulo its order. -/
theorem pow_mul_mod {ω : R} {m : Nat} (hω : ω ^ m = 1) (j k : Nat) :
    ω ^ (j * (k % m)) = ω ^ (j * k) := by
  have hexp : j * k = j * (k % m) + m * (j * (k / m)) := by
    conv_lhs => rw [← Nat.mod_add_div k m]
    ring
  rw [hexp, pow_add, pow_mul ω m, hω, one_pow, mul_one]

/-- A transform of composite length, from transforms of the input taken in steps. -/
theorem dft_decimate {ω : R} {p m : Nat} (hω : ω ^ (p * m) = 1) (x : Nat → R) (k : Nat) :
    dft ω (p * m) x k =
      ∑ q ∈ range p, dft (ω ^ p) m (fun j => x (p * j + q)) (k % m) * ω ^ (q * k) := by
  rw [pow_mul] at hω
  unfold dft
  rw [sum_range_steps]
  apply sum_congr rfl
  intro q _
  rw [sum_mul]
  apply sum_congr rfl
  intro j _
  rw [pow_mul_mod hω, ← pow_mul, mul_assoc, ← pow_add]
  congr 2
  ring

/-- A transform of an input that repeats. -/
theorem dft_repeat (ω : R) (p m : Nat) (w : Nat → R) (k : Nat) :
    dft ω (p * m) (fun j => w (j % p)) k =
      dft ω p w k * ∑ j ∈ range m, (ω ^ (p * k)) ^ j := by
  unfold dft
  rw [sum_range_steps, sum_mul]
  apply sum_congr rfl
  intro q hq
  rw [mul_sum]
  apply sum_congr rfl
  intro j _
  have hplace : w ((p * j + q) % p) = w q := by
    rw [Nat.mul_add_mod, Nat.mod_eq_of_lt (mem_range.mp hq)]
  simp only [hplace]
  rw [mul_assoc, ← pow_mul, ← pow_add]
  congr 2
  ring

/-- A product of powers of a base and its inverse. -/
theorem exists_pow_of_ne {ω ω' : R} {n : Nat} (hinv : ω * ω' = 1) (hω : ω ^ n = 1) {j k : Nat}
    (hj : j < n) (hk : k < n) (hne : j ≠ k) :
    ∃ d, 0 < d ∧ d < n ∧ ω ^ j * ω' ^ k = ω ^ d := by
  rcases Nat.lt_or_gt_of_ne hne with hlt | hlt
  · refine ⟨n + j - k, by omega, by omega, ?_⟩
    calc ω ^ j * ω' ^ k = ω ^ n * ω ^ j * ω' ^ k := by rw [hω, one_mul]
      _ = ω ^ (n + j - k) * (ω ^ k * ω' ^ k) := by
          rw [← pow_add, ← mul_assoc, ← pow_add, Nat.sub_add_cancel (by omega)]
      _ = ω ^ (n + j - k) := by rw [← mul_pow, hinv, one_pow, mul_one]
  · refine ⟨j - k, by omega, by omega, ?_⟩
    calc ω ^ j * ω' ^ k = ω ^ (j - k) * (ω ^ k * ω' ^ k) := by
          rw [← mul_assoc, ← pow_add, Nat.sub_add_cancel hlt.le]
      _ = ω ^ (j - k) := by rw [← mul_pow, hinv, one_pow, mul_one]

/-- The transform with the inverse base undoes a transform, up to its length, when the
sums of the powers of the base vanish. -/
theorem dft_dft {ω ω' : R} {n : Nat} (hinv : ω * ω' = 1) (hω : ω ^ n = 1)
    (hsum : ∀ d, 0 < d → d < n → ∑ j ∈ range n, (ω ^ d) ^ j = 0) (x : Nat → R) {k : Nat}
    (hk : k < n) : dft ω' n (dft ω n x) k = n * x k := by
  have hexchange : dft ω' n (dft ω n x) k =
      ∑ j ∈ range n, x j * ∑ a ∈ range n, (ω ^ j * ω' ^ k) ^ a := by
    unfold dft
    simp only [sum_mul, mul_sum]
    rw [sum_comm]
    apply sum_congr rfl
    intro j _
    apply sum_congr rfl
    intro a _
    rw [mul_pow, ← pow_mul, ← pow_mul, Nat.mul_comm a k, mul_assoc]
  have hother : ∀ j ∈ range n, j ≠ k →
      x j * ∑ a ∈ range n, (ω ^ j * ω' ^ k) ^ a = 0 := by
    intro j hj hne
    obtain ⟨d, hpos, hlt, hd⟩ := exists_pow_of_ne hinv hω (mem_range.mp hj) hk hne
    rw [hd, hsum d hpos hlt, mul_zero]
  have hself : ∑ a ∈ range n, (ω ^ k * ω' ^ k) ^ a = n := by
    rw [← mul_pow, hinv, one_pow]
    simp
  rw [hexchange, sum_eq_single_of_mem k (mem_range.mpr hk) hother, hself, mul_comm]

end Transform

/-! ## Loops over columns and segments -/

section Loops

variable {α : Type*}

/-- A loop that stores one place in each step. -/
theorem foldl_update {place : Nat → Nat} (hplace : Function.Injective place) (value : Nat → α)
    (F : Nat → α) (n k : Nat) :
    (∀ j < n, k = place j →
        (List.range n).foldl (fun F j => Function.update F (place j) (value j)) F k = value j) ∧
      ((∀ j < n, k ≠ place j) →
        (List.range n).foldl (fun F j => Function.update F (place j) (value j)) F k = F k) := by
  induction n with
  | zero => simp
  | succ n ih =>
      rw [List.range_succ, List.foldl_append, List.foldl_cons, List.foldl_nil]
      constructor
      · intro j hj hk
        by_cases hlast : j = n
        · rw [hk, hlast, Function.update_self]
        · have hne : k ≠ place n := fun h => hlast (hplace (hk.symm.trans h))
          rw [Function.update_of_ne hne]
          exact ih.1 j (by omega) hk
      · intro hother
        rw [Function.update_of_ne (hother n (by omega))]
        exact ih.2 fun j hj => hother j (by omega)

/-- A loop over the columns of an array whose rows have `m` places: every step changes
its column alone, to values that depend on this column alone. -/
theorem foldl_columns {m : Nat} {inside : Nat → Prop} [DecidablePred inside]
    {body : Nat → (Nat → α) → Nat → α} {value : (Nat → α) → Nat → α}
    (hbody : ∀ u < m, ∀ F k, body u F k = if k % m = u ∧ inside k then value F k else F k)
    (hvalue : ∀ F G k, (∀ i, i % m = k % m → F i = G i) → value F k = value G k)
    (F : Nat → α) {n : Nat} (hn : n ≤ m) (k : Nat) :
    (List.range n).foldl (fun F u => body u F) F k =
      if k % m < n ∧ inside k then value F k else F k := by
  induction n generalizing k with
  | zero => simp
  | succ n ih =>
      have ih := ih (by omega)
      rw [List.range_succ, List.foldl_append, List.foldl_cons, List.foldl_nil,
        hbody n (by omega)]
      by_cases hcolumn : k % m = n
      · by_cases hinside : inside k
        · rw [if_pos ⟨hcolumn, hinside⟩, if_pos ⟨by omega, hinside⟩]
          apply hvalue
          intro i hi
          rw [ih, if_neg (by omega)]
        · rw [if_neg (fun h => hinside h.2), if_neg (fun h => hinside h.2), ih,
            if_neg (fun h => hinside h.2)]
      · rw [if_neg (fun h => hcolumn h.1), ih]
        by_cases hlt : k % m < n
        · simp [hlt, Nat.lt_succ_of_lt hlt]
        · have hnot : ¬ k % m < n + 1 := by omega
          simp [hlt, hnot]

/-- A loop that fills one segment of `m` places in each step, with values that are read
outside of all segments. -/
theorem foldl_segments {m p o : Nat} (hm : 0 < m) {body : Nat → (Nat → α) → Nat → α}
    (value : Nat → Nat → α) {F : Nat → α}
    (hbody : ∀ q < p, ∀ G, (∀ k, ¬ (o ≤ k ∧ k < o + p * m) → G k = F k) → ∀ k, body q G k =
      if o + q * m ≤ k ∧ k < o + q * m + m then value q (k - (o + q * m)) else G k)
    {n : Nat} (hn : n ≤ p) (k : Nat) :
    (List.range n).foldl (fun F q => body q F) F k =
      if o ≤ k ∧ k < o + n * m then value ((k - o) / m) ((k - o) % m) else F k := by
  induction n generalizing k with
  | zero =>
      rw [if_neg (by omega)]
      rfl
  | succ n ih =>
      have ih := ih (by omega)
      have hsucc : (n + 1) * m = n * m + m := Nat.succ_mul n m
      have hlast : (n + 1) * m ≤ p * m := Nat.mul_le_mul_right m hn
      have houtside : ∀ k, ¬ (o ≤ k ∧ k < o + p * m) →
          (List.range n).foldl (fun F q => body q F) F k = F k := by
        intro k hk
        rw [ih, if_neg (by omega)]
      rw [List.range_succ, List.foldl_append, List.foldl_cons, List.foldl_nil,
        hbody n (by omega) _ houtside]
      by_cases hsegment : o + n * m ≤ k ∧ k < o + n * m + m
      · have hdiv : (k - o) / m = n := Nat.div_eq_of_lt_le (by omega) (by omega)
        have hmod : (k - o) % m = k - (o + n * m) := by
          have hsplit := Nat.div_add_mod (k - o) m
          rw [hdiv, Nat.mul_comm] at hsplit
          omega
        rw [if_pos hsegment, if_pos (by omega), hdiv, hmod]
      · rw [if_neg hsegment, ih]
        by_cases hbefore : o ≤ k ∧ k < o + n * m
        · rw [if_pos hbefore, if_pos (by omega)]
        · rw [if_neg hbefore, if_neg (by omega)]

/-- A function on the memory from an offset on. -/
def onSegment (o : Nat) (g : (Nat → α) → Nat → α) (F : Nat → α) : Nat → α := fun k =>
  if k < o then F k else g (fun i => F (o + i)) (k - o)

/-- The `n` places from `src` on in steps lie outside of the `n` places from `dst` on. -/
def Apart (src step dst n : Nat) : Prop :=
  ∀ i < n, ¬ (dst ≤ src + i * step ∧ src + i * step < dst + n)

/-- A loop that copies places in steps. -/
theorem foldl_copy {src step dst n : Nat} (hapart : Apart src step dst n) (mem : Nat → α)
    (k : Nat) :
    (List.range n).foldl
        (fun mem q => Function.update mem (dst + q) (mem (src + q * step))) mem k =
      if dst ≤ k ∧ k < dst + n then mem (src + (k - dst) * step) else mem k := by
  have hbody : ∀ q < n, ∀ G, (∀ k, ¬ (dst ≤ k ∧ k < dst + n * 1) → G k = mem k) → ∀ k,
      Function.update G (dst + q) (G (src + q * step)) k =
        if dst + q * 1 ≤ k ∧ k < dst + q * 1 + 1 then mem (src + q * step) else G k := by
    intro q hq G hG k
    have hread := hapart q hq
    rw [Function.update_apply, hG _ (by omega)]
    by_cases hk : k = dst + q
    · rw [if_pos hk, if_pos (by omega)]
    · rw [if_neg hk, if_neg (by omega)]
  have hloop := foldl_segments Nat.one_pos (fun q _ => mem (src + q * step)) hbody
    (Nat.le_refl n) k
  simpa using hloop

end Loops

end Fourier
end Lib
end Ls2kMorse
