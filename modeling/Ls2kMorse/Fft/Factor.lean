import Mathlib.Data.Nat.Log
import Mathlib.Data.Nat.Sqrt
import Mathlib.Tactic.Common
import Mathlib.Tactic.Ring

/-!
# Radices of the Fourier transform

`kf_factor` splits the length of a transform into radices: fours first, then twos, and
then odd numbers in turn.  The search compares its candidates with the square root of the
whole length, and takes what is left as the last radix once they are larger.

Main results:

- Theorem `factors_kfFactor`: the pairs in `facbuf` lead from the length to one.
- Theorem `length_kfFactor_le`: `facbuf` has room for them.
-/

namespace Ls2kMorse
namespace Fft

/-! ## The function as the source computes it -/

/-- The number of factor pairs that a configuration has room for. -/
def MAXFACTORS : Nat := 32

/-- The body of the inner `while` loop: the next candidate behind `p`. -/
def nextCandidate (floorSqrt n p : Nat) : Nat :=
  let p :=
    match p with
    | 4 => 2
    | 2 => 3
    | p => p + 2
  if p > floorSqrt then n else p

/-- How far the inner loop is from its end. -/
def distance (floorSqrt n p : Nat) : Nat :=
  if n % p = 0 then 0 else if p = 4 then floorSqrt + 3 else floorSqrt + 1 - p + 1

/-- Each candidate that does not divide brings the search nearer to its end. -/
theorem distance_nextCandidate {floorSqrt n p : Nat} (h : ¬ n % p = 0) :
    distance floorSqrt n (nextCandidate floorSqrt n p) < distance floorSqrt n p := by
  have hpos : 0 < distance floorSqrt n p := by
    unfold distance
    rw [if_neg h]
    split_ifs <;> omega
  unfold nextCandidate
  simp only
  split_ifs with hlarge
  · simpa [distance] using hpos
  · split at hlarge
    all_goals
      simp [distance, h]
      split_ifs <;> omega

/-- The inner `while` loop: the first candidate from `p` on that divides `n`. -/
def nextRadix (floorSqrt n p : Nat) : Nat :=
  if n % p = 0 then p else nextRadix floorSqrt n (nextCandidate floorSqrt n p)
termination_by distance floorSqrt n p
decreasing_by exact distance_nextCandidate ‹_›

/-- The `do` loop, with a bound on its iterations. -/
def kfFactorLoop (floorSqrt : Nat) : Nat → Nat → Nat → Option (List (Nat × Nat))
  | 0, _, _ => none
  | fuel + 1, n, p =>
      let p := nextRadix floorSqrt n p
      let n := n / p
      if n > 1 then do
        let facbuf ← kfFactorLoop floorSqrt fuel n p
        some ((p, n) :: facbuf)
      else some [(p, n)]

/-- The pairs that `kf_factor` stores into `facbuf`.  The square root of an `int` is
exact enough in a `double` for its integer part. -/
def kfFactor (n : Nat) : Option (List (Nat × Nat)) :=
  kfFactorLoop n.sqrt (n + 1) n 4

/-! ## What is stored -/

/-- Each pair splits the length, and what is left is split by the next ones. -/
def Factors : Nat → List (Nat × Nat) → Prop
  | _, [] => False
  | n, (p, m) :: facbuf => p * m = n ∧ if m = 1 then facbuf = [] else Factors m facbuf

/-- The radix found divides. -/
theorem nextRadix_dvd (floorSqrt n p : Nat) : nextRadix floorSqrt n p ∣ n := by
  fun_induction nextRadix floorSqrt n p with
  | case1 p h => exact Nat.dvd_of_mod_eq_zero h
  | case2 p h ih => exact ih

/-- A candidate is at least two. -/
theorem two_le_nextCandidate {floorSqrt n p : Nat} (hn : 1 < n) (hp : 2 ≤ p) :
    2 ≤ nextCandidate floorSqrt n p := by
  have hnext : 2 ≤ (match p with | 4 => 2 | 2 => 3 | p => p + 2) := by
    split <;> omega
  unfold nextCandidate
  simp only
  split_ifs
  · exact hn
  · exact hnext

/-- The radix found is at least two. -/
theorem two_le_nextRadix {floorSqrt n p : Nat} (hn : 1 < n) (hp : 2 ≤ p) :
    2 ≤ nextRadix floorSqrt n p := by
  fun_induction nextRadix floorSqrt n p with
  | case1 p h => exact hp
  | case2 p h ih => exact ih (two_le_nextCandidate hn hp)

/-- From a length above one the loop ends, its pairs split the length, and each of them
at least halves it. -/
theorem kfFactorLoop_spec (floorSqrt fuel : Nat) {n p : Nat} (hn : 1 < n) (hp : 2 ≤ p)
    (hfuel : n ≤ fuel) :
    ∃ facbuf, kfFactorLoop floorSqrt fuel n p = some facbuf ∧ Factors n facbuf ∧
      2 ^ facbuf.length ≤ n := by
  induction fuel generalizing n p with
  | zero => omega
  | succ fuel ih =>
      have hradix : 2 ≤ nextRadix floorSqrt n p := two_le_nextRadix hn hp
      obtain ⟨m, hm⟩ := nextRadix_dvd floorSqrt n p
      have hdiv : n / nextRadix floorSqrt n p = m :=
        Nat.div_eq_of_eq_mul_right (by omega) hm
      unfold kfFactorLoop
      simp only [hdiv]
      by_cases hmore : m > 1
      · have hhalf : 2 * m ≤ n := by
          rw [hm]
          exact Nat.mul_le_mul_right m hradix
        obtain ⟨facbuf, hloop, hfactors, hlength⟩ := ih hmore hradix (by omega)
        refine ⟨(nextRadix floorSqrt n p, m) :: facbuf, by simp [hmore, hloop], ?_, ?_⟩
        · exact ⟨hm.symm, by rwa [if_neg (by omega)]⟩
        · rw [List.length_cons, Nat.pow_succ]
          omega
      · have hone : m = 1 := by
          have hzero : m ≠ 0 := by
            rintro rfl
            omega
          omega
        refine ⟨[(nextRadix floorSqrt n p, m)], by simp [hmore], ?_, ?_⟩
        · exact ⟨hm.symm, by simp [hone]⟩
        · simpa using Nat.succ_le_of_lt hn

/-- For every positive length `kf_factor` ends, and its pairs lead from the length to
one. -/
theorem factors_kfFactor {n : Nat} (hn : 0 < n) :
    ∃ facbuf, kfFactor n = some facbuf ∧ Factors n facbuf ∧ 2 ^ facbuf.length ≤ 2 * n := by
  by_cases hone : n = 1
  · subst hone
    have hradix : nextRadix 1 1 4 = 1 := by
      rw [nextRadix, if_neg (by decide), nextRadix]
      simp [nextCandidate]
    refine ⟨[(1, 1)], ?_, ⟨rfl, rfl⟩, by simp⟩
    simp [kfFactor, kfFactorLoop, hradix]
  · obtain ⟨facbuf, hloop, hfactors, hlength⟩ :=
      kfFactorLoop_spec n.sqrt (n + 1) (by omega : 1 < n) (by decide : 2 ≤ 4) (Nat.le_succ n)
    exact ⟨facbuf, hloop, hfactors, by omega⟩

/-- The pairs of a length that is an `int` fit into `facbuf`. -/
theorem length_kfFactor_le {n : Nat} (hint : n < 2 ^ 31) {facbuf : List (Nat × Nat)}
    (hlength : 2 ^ facbuf.length ≤ 2 * n) : facbuf.length ≤ MAXFACTORS := by
  have hlt : 2 ^ facbuf.length < 2 ^ 32 := by omega
  exact (Nat.pow_lt_pow_iff_right (by decide)).mp hlt |>.le

end Fft
end Ls2kMorse
