import Mathlib.Data.List.Basic
import Mathlib.Data.List.Flatten
import Mathlib.Tactic.Common

/-!
# Splitting a list at a separator

The standard library splits a list at a separator and joins pieces with one.
This module adds what a reader of such a format needs about the pieces: they do
not contain the separator, their elements come from the list, and a joined list
is its first piece followed by the others with the separator in front of each.

Main results:

- Theorem `intercalate_singleton_cons`: joining as a concatenation.
- Theorem `mem_of_mem_splitOn`: the pieces of a split contain only elements of
  the list, and never the separator.
- Theorem `flatten_terminated_injective`: pieces that end with the separator can
  be told apart in their concatenation.
-/

namespace Ls2kMorse
namespace Lib

variable {α : Type}

/-- Joining with a separator puts it in front of every piece but the first. -/
theorem intercalate_singleton_cons (sep : α) (g : List α) (gs : List (List α)) :
    [sep].intercalate (g :: gs) = g ++ gs.flatMap fun g' => sep :: g' := by
  induction gs generalizing g with
  | nil => simp
  | cons g' gs ih => simp [List.intercalate_cons_cons, ih]

/-- Every element of a piece is an element of the list other than the separator. -/
theorem mem_of_mem_splitOn [BEq α] [LawfulBEq α] {sep y : α} {xs g : List α}
    (h : g ∈ xs.splitOn sep) (hy : y ∈ g) : y ∈ xs ∧ y ≠ sep := by
  induction xs generalizing g with
  | nil =>
      obtain rfl : g = [] := by simpa [List.splitOn_eq_splitOnP] using h
      exact absurd hy List.not_mem_nil
  | cons x xs ih =>
      have hcons : ∀ {g' : List α}, g' ∈ xs.splitOn sep → y ∈ g' → y ∈ x :: xs ∧ y ≠ sep := by
        intro g' hg' hy'
        rcases ih hg' hy' with ⟨hmem, hne⟩
        exact ⟨List.mem_cons_of_mem x hmem, hne⟩
      rcases List.exists_cons_of_ne_nil (List.splitOn_ne_nil sep xs) with ⟨g₀, gs, hsplit⟩
      rw [List.splitOn_cons_eq_if_modifyHead] at h
      rw [hsplit] at h hcons
      by_cases hx : x = sep
      · simp only [hx, BEq.rfl, if_true, List.mem_cons] at h
        rcases h with rfl | h
        · exact absurd hy List.not_mem_nil
        · exact hcons (by simpa using h) hy
      · simp only [beq_iff_eq, hx, if_false, List.modifyHead_cons, List.mem_cons] at h
        rcases h with rfl | h
        · rcases List.mem_cons.mp hy with rfl | hy
          · exact ⟨List.mem_cons_self, hx⟩
          · exact hcons List.mem_cons_self hy
        · exact hcons (List.mem_cons_of_mem g₀ h) hy

/-- A piece that ends with its only separator. -/
def Terminated (sep : α) (l : List α) : Prop :=
  ∃ g, sep ∉ g ∧ l = g ++ [sep]

/-- The first separator of a list is found in one place only. -/
theorem append_cons_injective {sep : α} {g g' r r' : List α} (hg : sep ∉ g) (hg' : sep ∉ g')
    (heq : g ++ sep :: r = g' ++ sep :: r') : g = g' ∧ r = r' := by
  rcases List.append_eq_append_iff.mp heq with ⟨c, rfl, hrest⟩ | ⟨c, rfl, hrest⟩
  all_goals
    cases c with
    | nil => simpa [eq_comm] using hrest
    | cons x c =>
        have hx : sep = x := (List.cons.inj hrest).1
        simp [hx] at hg hg'

/-- Terminated pieces are determined by their concatenation. -/
theorem flatten_terminated_injective {sep : α} {ls ls' : List (List α)}
    (h : ∀ l ∈ ls, Terminated sep l) (h' : ∀ l ∈ ls', Terminated sep l)
    (heq : ls.flatten = ls'.flatten) : ls = ls' := by
  induction ls generalizing ls' with
  | nil =>
      cases ls' with
      | nil => rfl
      | cons l' ls' =>
          rcases h' l' List.mem_cons_self with ⟨g', -, rfl⟩
          simp at heq
  | cons l ls ih =>
      rcases h l List.mem_cons_self with ⟨g, hg, rfl⟩
      cases ls' with
      | nil => simp at heq
      | cons l' ls' =>
          rcases h' l' List.mem_cons_self with ⟨g', hg', rfl⟩
          have hsplit : g ++ sep :: ls.flatten = g' ++ sep :: ls'.flatten := by simpa using heq
          rcases append_cons_injective hg hg' hsplit with ⟨hfirst, hrest⟩
          have htail : ls = ls' :=
            ih (fun m hm => h m (List.mem_cons_of_mem _ hm))
              (fun m hm => h' m (List.mem_cons_of_mem _ hm)) hrest
          rw [hfirst, htail]

end Lib
end Ls2kMorse
