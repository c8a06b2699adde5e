import Ls2kMorse.Lib.Trace
import Mathlib.Order.Lattice

/-!
# Steps that only add

Steps that are meant to assign values to fields, but join each value to what the
field already holds.  Such a field holds what was last assigned to it as long as
every value contains those before it, and from the first one on that does not, it
does not.

Main results:

- Theorem `along_assignsOwn_iff_of_joins`: when joining values amounts to assigning
  them.
-/

namespace Ls2kMorse
namespace Lib
namespace Trace

variable {σ ι φ ν : Type} [SemilatticeSup ν]

/-- A step joins its values to its own fields and leaves the others. -/
def Joins (exec : σ → ι → σ) (get : σ → φ → ν) (sets : ι → φ → Option ν) : Prop :=
  ∀ s i f, get (exec s i) f = (sets i f).elim (get s f) (get s f ⊔ ·)

/-- The values of one step contain those of another. -/
def Contains (sets : ι → φ → Option ν) (i j : ι) : Prop :=
  ∀ f v w, sets i f = some v → sets j f = some w → v ≤ w

variable {exec : σ → ι → σ} {get : σ → φ → ν} {sets : ι → φ → Option ν}

/-- Joining assigns what contains the old value. -/
theorem Joins.assignsOwn_iff (h : Joins exec get sets) (s : σ) (i : ι) :
    AssignsOwn exec get sets s i ↔ ∀ f v, sets i f = some v → get s f ≤ v := by
  unfold AssignsOwn
  apply forall_congr'
  intro f
  rw [h s i f]
  cases hsets : sets i f with
  | none => simp
  | some v => simp

/-- What a later value has to contain grows with a step. -/
theorem Joins.le_exec_iff (h : Joins exec get sets) (s : σ) (i j : ι) :
    (∀ f w, sets j f = some w → get (exec s i) f ≤ w) ↔
      (∀ f w, sets j f = some w → get s f ≤ w) ∧ Contains sets i j := by
  constructor
  · intro hle
    constructor
    · intro f w hw
      have hf := hle f w hw
      rw [h s i f] at hf
      cases hsets : sets i f with
      | none =>
          rw [hsets] at hf
          exact hf
      | some v =>
          rw [hsets] at hf
          exact le_sup_left.trans hf
    · intro f v w hv hw
      have hf := hle f w hw
      rw [h s i f, hv] at hf
      exact le_sup_right.trans hf
  · rintro ⟨hle, hcontains⟩ f w hw
    rw [h s i f]
    cases hsets : sets i f with
    | none => exact hle f w hw
    | some v => exact sup_le (hle f w hw) (hcontains f v w hsets hw)

/-- Along a trace, joining amounts to assigning exactly when every step contains the
initial values and the steps before it. -/
theorem along_assignsOwn_iff_of_joins (h : Joins exec get sets) (s : σ) (is : List ι) :
    Along exec (AssignsOwn exec get sets) s is ↔
      (∀ i ∈ is, ∀ f v, sets i f = some v → get s f ≤ v) ∧ is.Pairwise (Contains sets) := by
  induction is generalizing s with
  | nil => simp
  | cons i is ih =>
      have hnext : (∀ j ∈ is, ∀ f w, sets j f = some w → get (exec s i) f ≤ w) ↔
          (∀ j ∈ is, ∀ f w, sets j f = some w → get s f ≤ w) ∧ ∀ j ∈ is, Contains sets i j := by
        rw [← forall₂_and]
        exact forall₂_congr fun j _ => h.le_exec_iff s i j
      rw [along_cons, h.assignsOwn_iff, ih, hnext, List.forall_mem_cons, List.pairwise_cons]
      constructor
      · rintro ⟨hi, ⟨his, hcontains⟩, hpairwise⟩
        exact ⟨⟨hi, his⟩, hcontains, hpairwise⟩
      · rintro ⟨⟨hi, his⟩, hcontains, hpairwise⟩
        exact ⟨hi, ⟨his, hcontains⟩, hpairwise⟩

end Trace
end Lib
end Ls2kMorse
