import Mathlib.Algebra.Order.Ring.Nat
import Mathlib.Data.List.Basic
import Mathlib.Logic.Function.Basic
import Mathlib.Tactic.Common

/-!
# Reading queues in turn

A reader takes one element of each of `n` queues in turn and begins again with the first
one.  Its `j`-th step reads queue `j % n` for the `j / n`-th time, so what it has read is
determined by the queues alone, however they grow behind it.

Main results:

- Theorem `visits_succ`: a step is a visit of one queue.
- Theorem `inTurn_succ`: a step reads one more element.
- Theorem `inTurn_push`: what is put into a queue changes nothing that has been read.
-/

namespace Ls2kMorse
namespace Lib
namespace RoundRobin

variable {α : Type}

/-- How often queue `i` has been visited in the first `k` steps. -/
def visits (n k i : Nat) : Nat :=
  k / n + if i < k % n then 1 else 0

/-- Before the first visit no slot has been visited. -/
theorem visits_zero (n i : Nat) : visits n 0 i = 0 := by
  unfold visits
  rw [Nat.zero_div, Nat.zero_mod, if_neg (Nat.not_lt_zero i)]

/-- The next slot has been visited once in each whole round. -/
theorem visits_self (n k : Nat) : visits n k (k % n) = k / n := by
  unfold visits
  rw [if_neg (Nat.lt_irrefl _), Nat.add_zero]

/-- A step visits the queue whose turn it is. -/
theorem visits_succ {n i : Nat} (hi : i < n) (k : Nat) :
    visits n (k + 1) i = visits n k i + if i = k % n then 1 else 0 := by
  have hn : 0 < n := Nat.zero_lt_of_lt hi
  have hk : k + 1 = n * (k / n) + (k % n + 1) := by
    rw [← Nat.add_assoc, Nat.div_add_mod]
  have hturn : k % n < n := Nat.mod_lt k hn
  unfold visits
  rw [hk, Nat.mul_add_div hn, Nat.mul_add_mod]
  generalize k % n = r at hturn ⊢
  rcases Nat.lt_or_ge (r + 1) n with hlt | hge
  · rw [Nat.div_eq_of_lt hlt, Nat.mod_eq_of_lt hlt]
    split_ifs <;> omega
  · have hround : r + 1 = n := by omega
    rw [hround, Nat.div_self hn, Nat.mod_self]
    split_ifs <;> omega

/-- A step that has been made is one of the visits of its queue. -/
theorem div_lt_visits {n j k : Nat} (h : j < k) : j / n < visits n k (j % n) := by
  have hle : j / n ≤ k / n := Nat.div_le_div_right (Nat.le_of_lt h)
  unfold visits
  rcases Nat.lt_or_ge (j / n) (k / n) with hlt | hge
  · exact Nat.lt_add_right _ hlt
  · -- the same round, so the turn comes later
    have heq : j / n = k / n := Nat.le_antisymm hle hge
    have hj := Nat.div_add_mod j n
    have hk := Nat.div_add_mod k n
    rw [heq] at hj
    rw [if_pos (by omega), heq]
    exact Nat.lt_succ_self _

/-- The elements that the first `k` steps have read. -/
def inTurn (queues : Nat → List α) (n k : Nat) : List α :=
  (List.range k).filterMap fun j => (queues (j % n))[j / n]?

/-- The next step reads the element that its queue has for it. -/
theorem inTurn_succ {queues : Nat → List α} {n k : Nat} {a : α}
    (h : (queues (k % n))[k / n]? = some a) :
    inTurn queues n (k + 1) = inTurn queues n k ++ [a] := by
  have hread : [k].filterMap (fun j => (queues (j % n))[j / n]?) = [a] := by
    simp [h]
  unfold inTurn
  rw [List.range_succ, List.filterMap_append, hread]

/-- What is put into a queue is behind everything that has been read. -/
theorem inTurn_push {queues : Nat → List α} {n k : Nat}
    (h : ∀ j, j < k → j / n < (queues (j % n)).length) (i : Nat) (a : α) :
    inTurn (Function.update queues i (queues i ++ [a])) n k = inTurn queues n k := by
  unfold inTurn
  apply List.filterMap_congr
  intro j hj
  by_cases hij : j % n = i
  · have hread := h j (List.mem_range.mp hj)
    rw [hij] at hread ⊢
    rw [Function.update_self, List.getElem?_append_left hread]
  · rw [Function.update_of_ne hij]

end RoundRobin
end Lib
end Ls2kMorse
