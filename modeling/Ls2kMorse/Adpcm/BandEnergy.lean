import Ls2kMorse.Lib.Window

/-!
# The energy of a band

`double_tuple_sum(begin, end, tuple)` counts its index from zero and not from
`begin`: it adds up as many elements as the band has, but the first ones of the
array.  The elements are exact numbers here.

Main results:

- Theorem `doubleTupleSum_eq`: the sum that is returned.
- Theorem `doubleTupleSum_band_iff`: when it is the sum of the band, and when the
  sums of two neighbouring bands add up.
- Theorem `doubleTupleSum_bounds_iff`: for which bounds it is the sum of the band
  in every array.
-/

namespace Ls2kMorse
namespace Adpcm

open Lib

section Exact

variable {α : Type} [AddCommGroup α]

/-! ## The function as the source computes it -/

/-- The `for` loop from the index `i` on with a number of iterations left; no value
where an index lies outside the array. -/
def tupleSumLoop (src : List α) : Nat → Nat → α → Option α
  | 0, _, psum => some psum
  | n + 1, i, psum => do
      let x ← src[i]?
      tupleSumLoop src n (i + 1) (psum + x)

/-- `double_tuple_sum`: the sum over the band, accumulated from its first element. -/
def doubleTupleSum (begin stop : UInt16) (tuple : List α) : Option α :=
  tupleSumLoop tuple (stop.toNat - begin.toNat) 0 0

/-! ## What is added up -/

/-- The loop adds the window behind its position to the sum so far. -/
theorem tupleSumLoop_eq {src : List α} {n i : Nat} (psum : α) (h : i + n ≤ src.length) :
    tupleSumLoop src n i psum = some (psum + (window src i n).sum) := by
  induction n generalizing i psum with
  | zero => simp [tupleSumLoop]
  | succ n ih =>
      have hlt : i < src.length := by omega
      rw [tupleSumLoop, List.getElem?_eq_getElem hlt, window_cons n hlt, List.sum_cons,
        ← add_assoc]
      exact ih (psum + src[i]) (by omega)

/-- The sum of the elements of a band. -/
def bandSum (begin stop : UInt16) (tuple : List α) : α :=
  (window tuple begin.toNat (stop.toNat - begin.toNat)).sum

/-- As many elements are added up as the band has, from the first one on. -/
theorem doubleTupleSum_eq {begin stop : UInt16} {tuple : List α}
    (hlen : stop.toNat ≤ tuple.length) :
    doubleTupleSum begin stop tuple =
      some (window tuple 0 (stop.toNat - begin.toNat)).sum := by
  unfold doubleTupleSum
  rw [tupleSumLoop_eq 0 (by omega), zero_add]

/-! ## When this is the band -/

/-- The first elements of the array balance the last ones of the band, as many as
lie in front of the band, and at most as many as the band has. -/
def Balanced (begin stop : Nat) (tuple : List α) : Prop :=
  (window tuple 0 (min begin (stop - begin))).sum =
    (window tuple (stop - min begin (stop - begin)) (min begin (stop - begin))).sum

/-- The sums over two neighbouring bands add up to the sum over both. -/
def Additive (begin mid stop : UInt16) (tuple : List α) : Prop :=
  ∃ x y z, doubleTupleSum begin mid tuple = some x ∧ doubleTupleSum mid stop tuple = some y ∧
    doubleTupleSum begin stop tuple = some z ∧ x + y = z

/-- The window at the start has the sum of the band exactly when the tuple is
balanced. -/
theorem sum_window_zero_eq_iff {begin stop : Nat} (tuple : List α) (h : begin ≤ stop) :
    (window tuple 0 (stop - begin)).sum = (window tuple begin (stop - begin)).sum ↔
      Balanced begin stop tuple := by
  have hiff := sum_window_eq_iff tuple 0 begin (stop - begin)
  rw [Nat.zero_add, Nat.add_sub_cancel' h] at hiff
  exact hiff

/-- For every array and all bounds in it: the sum of the band is returned if and
only if the first elements of the array balance the last ones of the band, and the
sums over `[begin, mid)` and `[mid, end)` add up if and only if this holds for the
band that `[mid, end)` is when counted from `begin`. -/
theorem doubleTupleSum_band_iff {begin stop : UInt16} {tuple : List α} (h : begin ≤ stop)
    (hlen : stop.toNat ≤ tuple.length) :
    (doubleTupleSum begin stop tuple = some (bandSum begin stop tuple) ↔
        Balanced begin.toNat stop.toNat tuple) ∧
      ∀ mid, begin ≤ mid → mid ≤ stop →
        (Additive begin mid stop tuple ↔
          Balanced (mid.toNat - begin.toNat) (stop.toNat - begin.toNat) tuple) := by
  rw [UInt16.le_iff_toNat_le] at h
  constructor
  · rw [doubleTupleSum_eq hlen, Option.some.injEq]
    exact sum_window_zero_eq_iff tuple h
  · intro mid hbegin hend
    rw [UInt16.le_iff_toNat_le] at hbegin hend
    have hmid : mid.toNat ≤ tuple.length := by omega
    have hlengths : stop.toNat - begin.toNat - (mid.toNat - begin.toNat) =
        stop.toNat - mid.toNat := by omega
    have hboth : stop.toNat - begin.toNat =
        mid.toNat - begin.toNat + (stop.toNat - mid.toNat) := by omega
    have hsplit := sum_window_add tuple 0 (mid.toNat - begin.toNat) (stop.toNat - mid.toNat)
    rw [← hboth, Nat.zero_add] at hsplit
    have hbalanced := sum_window_zero_eq_iff tuple (Nat.sub_le_sub_right hend begin.toNat)
    rw [hlengths] at hbalanced
    rw [← hbalanced]
    unfold Additive
    rw [doubleTupleSum_eq hmid, doubleTupleSum_eq hlen, doubleTupleSum_eq hlen, hsplit]
    simp [eq_comm (a := (window tuple 0 (stop.toNat - mid.toNat)).sum)]

end Exact

/-- The band of the four elements behind a leading one. -/
theorem doubleTupleSum_band_example :
    (doubleTupleSum 1 5 [3, 1, 1, 2, 3, 7] = some (bandSum (α := ℤ) 1 5 [3, 1, 1, 2, 3, 7]) ↔
        Balanced (α := ℤ) 1 5 [3, 1, 1, 2, 3, 7]) ∧
      ∀ mid, 1 ≤ mid → mid ≤ 5 →
        (Additive (α := ℤ) 1 mid 5 [3, 1, 1, 2, 3, 7] ↔
          Balanced (α := ℤ) (mid.toNat - 1) (5 - 1) [3, 1, 1, 2, 3, 7]) :=
  doubleTupleSum_band_iff (by decide) (by decide)

/-- A one in front of the band is returned as the energy of the band. -/
theorem doubleTupleSum_leading :
    doubleTupleSum 1 2 [1, 0] = some (1 : ℤ) ∧
      doubleTupleSum 1 2 [1, 0] ≠ some (bandSum (α := ℤ) 1 2 [1, 0]) := by
  decide

/-- For two bounds the sum of the band is returned for every array of integers if
and only if the band begins at zero or is empty. -/
theorem doubleTupleSum_bounds_iff {begin stop : UInt16} (h : begin ≤ stop) :
    (∀ tuple : List ℤ, stop.toNat ≤ tuple.length →
        doubleTupleSum begin stop tuple = some (bandSum begin stop tuple)) ↔
      begin = 0 ∨ begin = stop := by
  rw [UInt16.le_iff_toNat_le] at h
  constructor
  · intro hall
    by_contra hne
    rw [not_or, ← UInt16.toNat_inj, ← UInt16.toNat_inj] at hne
    rcases hne with ⟨hbegin, hend⟩
    have hpos : 0 < begin.toNat := Nat.pos_of_ne_zero hbegin
    -- a single one in front of the band
    obtain ⟨n, hn⟩ : ∃ n, stop.toNat = n + 1 := ⟨stop.toNat - 1, by omega⟩
    obtain ⟨m, hm⟩ : ∃ m, begin.toNat = m + 1 := ⟨begin.toNat - 1, by omega⟩
    obtain ⟨k, hk⟩ : ∃ k, stop.toNat - begin.toNat = k + 1 :=
      ⟨stop.toNat - begin.toNat - 1, by omega⟩
    have hlen : stop.toNat ≤ ((1 : ℤ) :: List.replicate n 0).length := by
      simp [hn]
    have hsum := hall _ hlen
    rw [doubleTupleSum_eq hlen, Option.some.injEq, bandSum, hk, hm] at hsum
    simp [window] at hsum
  · rintro (rfl | rfl) tuple hlen
    · exact doubleTupleSum_eq hlen
    · rw [doubleTupleSum_eq hlen]
      simp [bandSum]

end Adpcm
end Ls2kMorse
