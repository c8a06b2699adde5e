import Mathlib.Data.List.Basic
import Mathlib.Logic.Relation
import Mathlib.Tactic.Common

/-!
# Traces of primitive steps

A routine that talks to hardware is a list of primitive steps, executed from
left to right on a state.  A safety property of such a routine is a condition on
every step in the state in which it is executed; it covers routines that are
cut off, since a prefix of a safe trace is safe.  The module contains this
notion and the rules of pre- and postconditions for it.

Main results:

- Theorem `along_append`: safety of one trace after another.
- Theorem `along_filter_of_idle`: steps that do nothing do not matter.
- Theorems `Triple.append`, `Triple.of_forall` and `Triple.take`: sequence,
  invariant and prefix rules.
- Theorem `Triple.along_append_iff`: safety of what follows a known trace.
- Theorem `holds_lastSet_iff`: fields hold what was last assigned to them exactly
  when every step assigns its own fields only.
- Theorem `run_invariant`: the invariant rule for steps that need a condition.
- Theorem `run_kept_or_lost`: a property that a step without the condition loses for good.
- Theorem `exists_of_descent`: a run ends when a measure descends along it.
-/

namespace Ls2kMorse
namespace Lib
namespace Trace

variable {σ ι : Type} {exec : σ → ι → σ} {ok ok' : σ → ι → Prop}

/-! ## Safe traces -/

/-- Executed from a state on, every step meets the condition. -/
def Along (exec : σ → ι → σ) (ok : σ → ι → Prop) : σ → List ι → Prop
  | _, [] => True
  | s, i :: is => ok s i ∧ Along exec ok (exec s i) is

@[simp]
theorem along_nil (s : σ) : Along exec ok s [] :=
  trivial

@[simp]
theorem along_cons (s : σ) (i : ι) (is : List ι) :
    Along exec ok s (i :: is) ↔ ok s i ∧ Along exec ok (exec s i) is :=
  Iff.rfl

/-- One trace after another is safe exactly when both are. -/
theorem along_append (s : σ) (is js : List ι) :
    Along exec ok s (is ++ js) ↔ Along exec ok s is ∧ Along exec ok (is.foldl exec s) js := by
  induction is generalizing s with
  | nil => simp
  | cons i is ih => simp only [List.cons_append, along_cons, ih, List.foldl_cons, and_assoc]

/-- A weaker condition holds along the same trace. -/
theorem Along.mono (h : ∀ s i, ok s i → ok' s i) {s : σ} {is : List ι}
    (his : Along exec ok s is) : Along exec ok' s is := by
  induction is generalizing s with
  | nil => trivial
  | cons i is ih => exact ⟨h s i his.1, ih his.2⟩

/-- A condition that every step meets in every state. -/
theorem along_of_forall (h : ∀ s i, ok s i) (s : σ) (is : List ι) : Along exec ok s is := by
  induction is generalizing s with
  | nil => trivial
  | cons i is ih => exact ⟨h s i, ih (exec s i)⟩

/-- A trace whose steps are given by a translation. -/
theorem along_map {κ : Type} (f : κ → ι) (s : σ) (js : List κ) :
    Along exec ok s (js.map f) ↔ Along (fun s j => exec s (f j)) (fun s j => ok s (f j)) s js := by
  induction js generalizing s with
  | nil => exact Iff.rfl
  | cons j js ih => rw [List.map_cons, along_cons, along_cons, ih]

/-- Steps that do nothing may be left out. -/
theorem foldl_filter_of_idle {p : ι → Bool} (hidle : ∀ s i, p i = false → exec s i = s) (s : σ)
    (is : List ι) : (is.filter p).foldl exec s = is.foldl exec s := by
  induction is generalizing s with
  | nil => rfl
  | cons i is ih =>
      cases hp : p i with
      | true => rw [List.filter_cons_of_pos hp, List.foldl_cons, List.foldl_cons, ih]
      | false =>
          rw [List.filter_cons_of_neg (Bool.not_eq_true _ ▸ hp), List.foldl_cons, hidle s i hp, ih]

/-- Steps that do nothing and are always safe may be left out. -/
theorem along_filter_of_idle {p : ι → Bool}
    (hidle : ∀ s i, p i = false → exec s i = s ∧ ok s i) (s : σ) (is : List ι) :
    Along exec ok s (is.filter p) ↔ Along exec ok s is := by
  induction is generalizing s with
  | nil => exact Iff.rfl
  | cons i is ih =>
      cases hp : p i with
      | true => rw [List.filter_cons_of_pos hp, along_cons, along_cons, ih]
      | false =>
          rw [List.filter_cons_of_neg (Bool.not_eq_true _ ▸ hp), along_cons, (hidle s i hp).1, ih]
          exact (and_iff_right (hidle s i hp).2).symm

/-! ## Pre- and postconditions -/

/-- From every state with the precondition, the trace is safe and ends in a
state with the postcondition. -/
def Triple (exec : σ → ι → σ) (ok : σ → ι → Prop) (pre : σ → Prop) (is : List ι)
    (post : σ → Prop) : Prop :=
  ∀ s, pre s → Along exec ok s is ∧ post (is.foldl exec s)

variable {pre mid post inv : σ → Prop} {is js : List ι}

theorem Triple.nil : Triple exec ok pre [] pre :=
  fun _ hs => ⟨trivial, hs⟩

/-- A single step. -/
theorem Triple.single {i : ι} (hok : ∀ s, pre s → ok s i) (hpost : ∀ s, pre s → post (exec s i)) :
    Triple exec ok pre [i] post :=
  fun s hs => ⟨⟨hok s hs, trivial⟩, hpost s hs⟩

/-- Sequencing. -/
theorem Triple.append (h₁ : Triple exec ok pre is mid) (h₂ : Triple exec ok mid js post) :
    Triple exec ok pre (is ++ js) post := by
  intro s hs
  rcases h₁ s hs with ⟨hsafe₁, hmid⟩
  rcases h₂ _ hmid with ⟨hsafe₂, hpost⟩
  rw [along_append, List.foldl_append]
  exact ⟨⟨hsafe₁, hsafe₂⟩, hpost⟩

/-- A weaker condition on the steps. -/
theorem Triple.mono (hok : ∀ s i, ok s i → ok' s i) (h : Triple exec ok pre is post) :
    Triple exec ok' pre is post := by
  intro s hs
  rcases h s hs with ⟨hsafe, hend⟩
  exact ⟨hsafe.mono hok, hend⟩

/-- Behind a trace with a triple, safety is that of the rest from its
postcondition on. -/
theorem Triple.along_append_iff (h : Triple exec ok pre is post) {s : σ} (hs : pre s) {P : Prop}
    (hjs : ∀ s', post s' → (Along exec ok s' js ↔ P)) :
    Along exec ok s (is ++ js) ↔ P := by
  rcases h s hs with ⟨hsafe, hend⟩
  rw [along_append, hjs _ hend]
  exact and_iff_right hsafe

/-- Steps that each keep an invariant keep it together. -/
theorem Triple.of_forall (h : ∀ i ∈ is, Triple exec ok inv [i] inv) :
    Triple exec ok inv is inv := by
  induction is with
  | nil => exact Triple.nil
  | cons i is ih =>
      have hrest := ih fun j hj => h j (List.mem_cons_of_mem i hj)
      exact Triple.append (h i List.mem_cons_self) hrest

/-- Steps that each keep an invariant may be cut off anywhere. -/
theorem Triple.take (h : ∀ i ∈ is, Triple exec ok inv [i] inv) (n : Nat) :
    Triple exec ok inv (is.take n) inv :=
  Triple.of_forall fun i hi => h i (List.mem_of_mem_take hi)

/-! ## Last assignments -/

section Assignments

variable {φ ν : Type} {get : σ → φ → ν} {sets : ι → φ → Option ν}

/-- The value that was last assigned to a field, or its initial one. -/
def lastSet (sets : ι → φ → Option ν) (initial : φ → ν) (is : List ι) (f : φ) : ν :=
  (is.reverse.findSome? fun i => sets i f).getD (initial f)

theorem lastSet_nil (initial : φ → ν) (f : φ) : lastSet sets initial [] f = initial f :=
  rfl

/-- What the first input sets is what the others start from. -/
theorem lastSet_cons (initial : φ → ν) (i : ι) (is : List ι) (f : φ) :
    lastSet sets initial (i :: is) f =
      lastSet sets (fun f => (sets i f).getD (initial f)) is f := by
  unfold lastSet
  rw [List.reverse_cons, List.findSome?_append, Option.getD_or, List.findSome?_singleton]

/-- A step gives its own fields their values and leaves the others. -/
def AssignsOwn (exec : σ → ι → σ) (get : σ → φ → ν) (sets : ι → φ → Option ν) (s : σ) (i : ι) :
    Prop :=
  ∀ f, get (exec s i) f = (sets i f).getD (get s f)

/-- In every state of a run each field holds what was last assigned to it, exactly
when every step assigns its own fields only. -/
theorem holds_lastSet_iff (s : σ) (is : List ι) :
    (∀ js, js <+: is → ∀ f, get (js.foldl exec s) f = lastSet sets (get s) js f) ↔
      Along exec (AssignsOwn exec get sets) s is := by
  induction is generalizing s with
  | nil =>
      apply iff_of_true _ trivial
      intro js hjs f
      rw [List.prefix_nil.mp hjs]
      rfl
  | cons i is ih =>
      rw [along_cons, ← ih]
      constructor
      · intro h
        have hstep : AssignsOwn exec get sets s i := by
          intro f
          have hone := h [i] (List.cons_prefix_cons.mpr ⟨rfl, List.nil_prefix⟩) f
          rwa [lastSet_cons, lastSet_nil] at hone
        refine ⟨hstep, ?_⟩
        intro js hjs f
        have hlonger := h (i :: js) (List.cons_prefix_cons.mpr ⟨rfl, hjs⟩) f
        rw [lastSet_cons, ← funext hstep] at hlonger
        exact hlonger
      · rintro ⟨hstep, hrest⟩ js hjs f
        cases js with
        | nil => rfl
        | cons j js =>
            rcases List.cons_prefix_cons.mp hjs with ⟨rfl, htail⟩
            rw [lastSet_cons, ← funext hstep]
            exact hrest js htail f

/-- Steps that all assign their own fields only. -/
theorem get_foldl_of_assignsOwn (h : ∀ s i, AssignsOwn exec get sets s i) (s : σ) (is : List ι)
    (f : φ) : get (is.foldl exec s) f = lastSet sets (get s) is f :=
  (holds_lastSet_iff s is).mpr (along_of_forall h s is) is (List.prefix_refl is) f

end Assignments

/-! ## Steps that need a condition -/

section Partial

variable {step : σ → ι → Option σ}

/-- The steps of a trace one after another, as far as each is possible. -/
def run (step : σ → ι → Option σ) : σ → List ι → Option σ
  | s, [] => some s
  | s, i :: is => (step s i).bind fun s' => run step s' is

@[simp]
theorem run_nil (s : σ) : run step s [] = some s :=
  rfl

/-- A run is a first step and a run of the others. -/
theorem run_cons_eq_some {s t : σ} {i : ι} {is : List ι} :
    run step s (i :: is) = some t ↔ ∃ s', step s i = some s' ∧ run step s' is = some t := by
  rw [run, Option.bind_eq_some_iff]

/-- An invariant of every step with an admissible label holds after every run of such steps. -/
theorem run_invariant {ok : ι → Prop}
    (hstep : ∀ s i s', inv s → ok i → step s i = some s' → inv s') {s t : σ} {is : List ι}
    (hs : inv s) (hok : ∀ i ∈ is, ok i) (hrun : run step s is = some t) : inv t := by
  induction is generalizing s with
  | nil =>
      rw [run_nil, Option.some.injEq] at hrun
      rw [← hrun]
      exact hs
  | cons i is ih =>
      rcases run_cons_eq_some.mp hrun with ⟨s', hi, hrest⟩
      have hs' := hstep s i s' hs (hok i List.mem_cons_self) hi
      exact ih hs' (fun j hj => hok j (List.mem_cons_of_mem i hj)) hrest

/-- An invariant of every step holds after every run. -/
theorem run_invariant_of_forall (hstep : ∀ s i s', inv s → step s i = some s' → inv s')
    {s t : σ} {is : List ι} (hs : inv s) (hrun : run step s is = some t) : inv t := by
  apply run_invariant _ hs (fun _ _ => trivial) hrun
  intro u i u' hu _ hi
  exact hstep u i u' hu hi

/-- In a run, every step meets the condition in the state in which it is made. -/
def AlongRun (step : σ → ι → Option σ) (ok : σ → ι → Prop) : σ → List ι → Prop
  | _, [] => True
  | s, i :: is => ok s i ∧ ∀ s', step s i = some s' → AlongRun step ok s' is

/-- When the steps with the condition keep a property, those without it lose it, and it
never comes back, then it is kept by the runs along which the condition holds and lost by
the others. -/
theorem run_kept_or_lost {kept lost : σ → Prop}
    (hkept : ∀ s i s', kept s → step s i = some s' → (ok s i ∧ kept s') ∨ (¬ ok s i ∧ lost s'))
    (hlost : ∀ s i s', lost s → step s i = some s' → lost s') {s t : σ} {is : List ι}
    (hs : kept s) (hrun : run step s is = some t) :
    (AlongRun step ok s is ∧ kept t) ∨ (¬ AlongRun step ok s is ∧ lost t) := by
  induction is generalizing s with
  | nil =>
      rw [run_nil, Option.some.injEq] at hrun
      exact Or.inl ⟨trivial, hrun ▸ hs⟩
  | cons i is ih =>
      rcases run_cons_eq_some.mp hrun with ⟨s', hi, hrest⟩
      rcases hkept s i s' hs hi with ⟨hok, hs'⟩ | ⟨hnot, hs'⟩
      · rcases ih hs' hrest with ⟨halong, ht⟩ | ⟨hbreaks, ht⟩
        · refine Or.inl ⟨⟨hok, ?_⟩, ht⟩
          intro s'' hs''
          rw [hi, Option.some.injEq] at hs''
          rw [← hs'']
          exact halong
        · exact Or.inr ⟨fun halong => hbreaks (halong.2 s' hi), ht⟩
      · have ht : lost t := run_invariant_of_forall hlost hs' hrest
        exact Or.inr ⟨fun halong => hnot halong.1, ht⟩

/-- A step of the run has the property of its two states. -/
def SomeStep (step : σ → ι → Option σ) (P : σ → σ → Prop) : σ → List ι → Prop
  | _, [] => False
  | s, i :: is => ∃ s', step s i = some s' ∧ (P s s' ∨ SomeStep step P s' is)

/-- A property of some step: of the first or of a later one. -/
theorem someStep_cons {P : σ → σ → Prop} {s s' : σ} {i : ι} {is : List ι}
    (hi : step s i = some s') :
    SomeStep step P s (i :: is) ↔ P s s' ∨ SomeStep step P s' is := by
  constructor
  · intro h
    rcases h with ⟨s'', hs'', h⟩
    rw [hi, Option.some.injEq] at hs''
    rw [hs'']
    exact h
  · intro h
    exact ⟨s', hi, h⟩

/-- A property that no step has while an invariant holds. -/
theorem not_someStep_of_invariant {ok : ι → Prop} {P : σ → σ → Prop}
    (hstep : ∀ s i s', inv s → ok i → step s i = some s' → inv s' ∧ ¬ P s s') {s : σ}
    {is : List ι} (hs : inv s) (hok : ∀ i ∈ is, ok i) : ¬ SomeStep step P s is := by
  induction is generalizing s with
  | nil => exact id
  | cons i is ih =>
      intro h
      rcases h with ⟨s', hi, h⟩
      rcases hstep s i s' hs (hok i List.mem_cons_self) hi with ⟨hs', hnot⟩
      rcases h with h | h
      · exact hnot h
      · exact ih hs' (fun j hj => hok j (List.mem_cons_of_mem i hj)) h

end Partial

/-! ## Progress -/

/-- When every state that is reached has the property, or a next state with a
smaller measure, then a state with the property is reached. -/
theorem exists_of_descent {μ : Type} {less : μ → μ → Prop} (hwf : WellFounded less)
    {r : σ → σ → Prop} {p : σ → Prop} (measure : σ → μ) {s : σ}
    (h : ∀ t, Relation.ReflTransGen r s t → p t ∨ ∃ u, r t u ∧ less (measure u) (measure t)) :
    ∃ t, Relation.ReflTransGen r s t ∧ p t := by
  have hfrom : ∀ m t, measure t = m → Relation.ReflTransGen r s t →
      ∃ u, Relation.ReflTransGen r s u ∧ p u := by
    intro m
    induction m using hwf.induction with
    | _ m ih =>
        intro t hm ht
        rcases h t ht with hp | ⟨u, hu, hless⟩
        · exact ⟨t, ht, hp⟩
        · rw [hm] at hless
          exact ih (measure u) hless u rfl (ht.tail hu)
  exact hfrom _ s rfl Relation.ReflTransGen.refl

end Trace
end Lib
end Ls2kMorse
