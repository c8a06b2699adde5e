import Mathlib.Data.List.Basic
import Mathlib.Logic.Function.Basic
import Mathlib.Tactic.Common

/-!
# Machines with outputs

A machine takes one step for each input and answers with an output.  When every step
of one machine looks, through an abstraction of its state, like the step of another
one, then so do its runs.

Main results:

- Theorem `runOutputs_append`: one run after another.
- Theorems `Simulates.run` and `SimulatesOn.run`: a run gives the outputs of the
  abstract one.
- Theorem `FollowsOn.run`: a run leads to the state of the abstract one.
- Theorem `runOutputs_updateAt`: a component is what its own inputs make of it.
-/

namespace Ls2kMorse
namespace Lib
namespace Simulation

variable {σ τ ι ο κ α : Type}

/-- The outputs of a run and the state behind it. -/
def runOutputs (step : σ → ι → ο × σ) : σ → List ι → List ο × σ
  | s, [] => ([], s)
  | s, i :: is =>
      let (out, s) := step s i
      let (outs, s) := runOutputs step s is
      (out :: outs, s)

@[simp]
theorem runOutputs_nil (step : σ → ι → ο × σ) (s : σ) : runOutputs step s [] = ([], s) :=
  rfl

theorem runOutputs_cons (step : σ → ι → ο × σ) (s : σ) (i : ι) (is : List ι) :
    runOutputs step s (i :: is) =
      ((step s i).1 :: (runOutputs step (step s i).2 is).1,
        (runOutputs step (step s i).2 is).2) :=
  rfl

/-- One run after another. -/
theorem runOutputs_append (step : σ → ι → ο × σ) (s : σ) (is js : List ι) :
    runOutputs step s (is ++ js) =
      ((runOutputs step s is).1 ++ (runOutputs step (runOutputs step s is).2 js).1,
        (runOutputs step (runOutputs step s is).2 js).2) := by
  induction is generalizing s with
  | nil => simp
  | cons i is ih => simp [runOutputs_cons, ih]

/-- Every step has the output of the abstract one and leads to its state. -/
def Simulates (abs : σ → τ) (step : σ → ι → ο × σ) (spec : τ → ι → ο × τ) : Prop :=
  ∀ s i, (step s i).1 = (spec (abs s) i).1 ∧ abs (step s i).2 = (spec (abs s) i).2

/-- So does every run. -/
theorem Simulates.run {abs : σ → τ} {step : σ → ι → ο × σ} {spec : τ → ι → ο × τ}
    (h : Simulates abs step spec) (s : σ) (is : List ι) :
    (runOutputs step s is).1 = (runOutputs spec (abs s) is).1 ∧
      abs (runOutputs step s is).2 = (runOutputs spec (abs s) is).2 := by
  induction is generalizing s with
  | nil => simp
  | cons i is ih =>
      rcases h s i with ⟨hout, habs⟩
      rcases ih (step s i).2 with ⟨houts, hrest⟩
      simp only [runOutputs_cons]
      rw [hout, houts, hrest, habs]
      exact ⟨rfl, rfl⟩

/-! ## Simulations from the states of an invariant -/

/-- From the states of an invariant every step leads to the state of the abstract one and
keeps the invariant. -/
structure FollowsOn (inv : σ → Prop) (abs : σ → τ) (step : σ → ι → ο × σ)
    (spec : τ → ι → ο × τ) : Prop where
  keeps : ∀ s i, inv s → inv (step s i).2
  state : ∀ s i, inv s → abs (step s i).2 = (spec (abs s) i).2

/-- So does every run. -/
theorem FollowsOn.run {inv : σ → Prop} {abs : σ → τ} {step : σ → ι → ο × σ}
    {spec : τ → ι → ο × τ} (h : FollowsOn inv abs step spec) {s : σ} (hs : inv s)
    (is : List ι) :
    abs (runOutputs step s is).2 = (runOutputs spec (abs s) is).2 ∧
      inv (runOutputs step s is).2 := by
  induction is generalizing s with
  | nil => simpa using hs
  | cons i is ih =>
      rcases ih (h.keeps s i hs) with ⟨hrest, hinv⟩
      simp only [runOutputs_cons]
      rw [hrest, h.state s i hs]
      exact ⟨rfl, hinv⟩

/-- From the states of an invariant every step on a permitted input has the output of the
abstract one, leads to its state and keeps the invariant. -/
structure SimulatesOn (inv : σ → Prop) (permitted : ι → Prop) (abs : σ → τ)
    (step : σ → ι → ο × σ) (spec : τ → ι → ο × τ) : Prop where
  keeps : ∀ s i, inv s → permitted i → inv (step s i).2
  output : ∀ s i, inv s → permitted i → (step s i).1 = (spec (abs s) i).1
  state : ∀ s i, inv s → permitted i → abs (step s i).2 = (spec (abs s) i).2

/-- So does every run on permitted inputs. -/
theorem SimulatesOn.run {inv : σ → Prop} {permitted : ι → Prop} {abs : σ → τ}
    {step : σ → ι → ο × σ} {spec : τ → ι → ο × τ}
    (h : SimulatesOn inv permitted abs step spec) {s : σ} (hs : inv s) {is : List ι}
    (his : ∀ i ∈ is, permitted i) :
    (runOutputs step s is).1 = (runOutputs spec (abs s) is).1 ∧
      abs (runOutputs step s is).2 = (runOutputs spec (abs s) is).2 ∧
      inv (runOutputs step s is).2 := by
  induction is generalizing s with
  | nil => simpa using hs
  | cons i is ih =>
      have hi := his i List.mem_cons_self
      have hrest := fun j hj => his j (List.mem_cons_of_mem i hj)
      rcases ih (h.keeps s i hs hi) hrest with ⟨houts, hstate, hinv⟩
      simp only [runOutputs_cons]
      rw [houts, hstate, h.output s i hs hi, h.state s i hs hi]
      exact ⟨rfl, rfl, hinv⟩

/-! ## Independent components -/

section Components

variable [DecidableEq κ] (key : ι → κ) (act : α → ι → α) (output : ι → ο)

/-- A step of a family of components: an input acts on the component it names, and its
output does not depend on the components. -/
def updateAt (f : κ → α) (i : ι) : ο × (κ → α) :=
  (output i, Function.update f (key i) (act (f (key i)) i))

/-- A component is what the inputs that name it make of it. -/
theorem runOutputs_updateAt (f : κ → α) (is : List ι) (k : κ) :
    (runOutputs (updateAt key act output) f is).2 k =
      (is.filter fun i => key i = k).foldl act (f k) := by
  induction is generalizing f with
  | nil => simp
  | cons i is ih =>
      rw [runOutputs_cons, ih]
      by_cases hkey : key i = k
      · simp [updateAt, hkey]
      · simp [updateAt, hkey, Function.update_of_ne (Ne.symm hkey)]

/-- The outputs are those of the inputs. -/
theorem runOutputs_updateAt_fst (f : κ → α) (is : List ι) :
    (runOutputs (updateAt key act output) f is).1 = is.map output := by
  induction is generalizing f with
  | nil => simp
  | cons i is ih => simp [runOutputs_cons, ih, updateAt]

end Components

end Simulation
end Lib
end Ls2kMorse
