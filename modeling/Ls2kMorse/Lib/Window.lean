import Mathlib.Algebra.BigOperators.Group.List.Basic
import Mathlib.Algebra.Order.Ring.Nat
import Mathlib.Data.List.Basic
import Mathlib.Tactic.Common

/-!
# Windows of a list

A window is a run of a list, given by its first index and its length.

Main results:

- Theorem `window_add`: a window can be cut anywhere.
- Theorem `window_cons`: a window begins with the element at its first index.
- Theorem `flatMap_range'`: runs of one length that follow each other.
- Theorem `sum_window_eq_iff`: two windows of one length have the same sum exactly
  when what one has in front of the other balances what this has behind it.
-/

namespace Ls2kMorse
namespace Lib

variable {α : Type}

/-- The run of `len` elements from index `lo` on. -/
def window (xs : List α) (lo len : Nat) : List α :=
  (xs.drop lo).take len

@[simp]
theorem window_zero (xs : List α) (lo : Nat) : window xs lo 0 = [] :=
  List.take_zero

/-- A window inside the list has its length. -/
theorem length_window {xs : List α} {lo len : Nat} (h : lo + len ≤ xs.length) :
    (window xs lo len).length = len := by
  unfold window
  rw [List.length_take, List.length_drop]
  omega

/-- A window is cut in two. -/
theorem window_add (xs : List α) (lo m n : Nat) :
    window xs lo (m + n) = window xs lo m ++ window xs (lo + m) n := by
  unfold window
  rw [List.take_add, List.drop_drop]

/-- A window begins with the element at its start. -/
theorem window_cons {xs : List α} {lo : Nat} (len : Nat) (h : lo < xs.length) :
    window xs lo (len + 1) = xs[lo] :: window xs (lo + 1) len := by
  unfold window
  rw [List.drop_eq_getElem_cons h, List.take_succ_cons]

/-- Reading the elements of a window one by one. -/
theorem mapM_range'_getElem? {xs : List α} {lo len : Nat} (h : lo + len ≤ xs.length) :
    (List.range' lo len).mapM (fun i => xs[i]?) = some (window xs lo len) := by
  induction len generalizing lo with
  | zero => simp
  | succ len ih =>
      have hlt : lo < xs.length := by omega
      rw [List.range'_succ, List.mapM_cons, List.getElem?_eq_getElem hlt, window_cons len hlt,
        ih (by omega)]
      rfl

/-- Indices cut into runs of one length. -/
theorem flatMap_range' (lo n k : Nat) :
    ((List.range n).flatMap fun b => List.range' (lo + k * b) k) = List.range' lo (k * n) := by
  induction n with
  | zero => simp
  | succ n ih =>
      rw [List.range_succ, List.flatMap_append, ih, List.flatMap_singleton, Nat.mul_succ,
        List.range'_append_1]

/-! ## Sums -/

section Sums

variable [AddCommGroup α]

/-- The sum over a window is cut in two. -/
theorem sum_window_add (xs : List α) (lo m n : Nat) :
    (window xs lo (m + n)).sum = (window xs lo m).sum + (window xs (lo + m) n).sum := by
  rw [window_add, List.sum_append]

/-- The part that two windows of one length share does not matter for the equality
of their sums. -/
theorem sum_window_eq_iff (xs : List α) (lo shift len : Nat) :
    (window xs lo len).sum = (window xs (lo + shift) len).sum ↔
      (window xs lo (min shift len)).sum =
        (window xs (lo + shift + len - min shift len) (min shift len)).sum := by
  rcases Nat.le_total shift len with hshift | hlen
  · -- the windows overlap in what lies from `lo + shift` to `lo + len`
    have hfirst : (window xs lo len).sum =
        (window xs lo shift).sum + (window xs (lo + shift) (len - shift)).sum := by
      rw [← sum_window_add, Nat.add_sub_cancel' hshift]
    have hsecond : (window xs (lo + shift) len).sum =
        (window xs (lo + len) shift).sum + (window xs (lo + shift) (len - shift)).sum := by
      have hend : lo + shift + (len - shift) = lo + len := by omega
      have hcut := sum_window_add xs (lo + shift) (len - shift) shift
      rw [Nat.sub_add_cancel hshift, hend] at hcut
      rw [hcut, add_comm]
    have hback : lo + shift + len - shift = lo + len := by omega
    rw [Nat.min_eq_left hshift, hback, hfirst, hsecond]
    exact add_left_inj _
  · rw [Nat.min_eq_right hlen, Nat.add_sub_cancel]

end Sums

end Lib
end Ls2kMorse
