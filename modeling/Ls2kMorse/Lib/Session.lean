import Mathlib.Data.List.Basic
import Mathlib.Tactic.Common

/-!
# Sessions

A session on a shared medium is a list of events that has to be closed, and closed
once: behind its last step when all went well, and at once behind the first step
that failed.  The module names the three shapes that the events of a routine can
have and says how they are put together.

Main results:

- Theorems `Running.append_finished` and `Running.append_aborted`: what follows a
  running session decides how it ends.
- Theorem `Ended.closedOnce`: a session that ended was closed once, at its end.
- Theorem `Ended.quiet`: nothing is done in it behind a failure.
- Theorems `Finished.forall_not_fails` and `Aborted.not_forall_not_fails`: it was finished
  when nothing failed, and aborted otherwise.
-/

namespace Ls2kMorse
namespace Lib
namespace Session

/-- Which events are failures, which close the session and which do something on the
medium.  Closing neither fails nor counts as doing something. -/
structure Signs (ε : Type) where
  fails : ε → Bool
  closes : ε → Bool
  acts : ε → Bool
  fails_of_closes : ∀ e, closes e = true → fails e = false
  acts_of_closes : ∀ e, closes e = true → acts e = false

variable {ε : Type} (s : Signs ε)

/-! ## Shapes of a session -/

/-- Not closed yet, and without failures. -/
def Running (es : List ε) : Prop :=
  ∀ e ∈ es, s.fails e = false ∧ s.closes e = false

/-- Closed without failures. -/
def Finished (es : List ε) : Prop :=
  ∃ front c, es = front ++ [c] ∧ Running s front ∧ s.closes c = true

/-- Closed at once behind the first failure. -/
def Aborted (es : List ε) : Prop :=
  ∃ front e c, es = front ++ [e, c] ∧ Running s front ∧ s.fails e = true ∧ s.closes c = true

/-- Closed in one of the two ways. -/
def Ended (es : List ε) : Prop :=
  Finished s es ∨ Aborted s es

variable {s} {es es' : List ε}

/-- An open session may have no events yet. -/
theorem running_nil : Running s [] := by
  intro e he
  exact absurd he List.not_mem_nil

/-- One event that neither fails nor closes leaves the session open. -/
theorem running_singleton {e : ε} (hfails : s.fails e = false) (hcloses : s.closes e = false) :
    Running s [e] := by
  intro e' he'
  rcases List.mem_singleton.mp he' with rfl
  exact ⟨hfails, hcloses⟩

/-- An open session goes on. -/
theorem Running.append (h : Running s es) (h' : Running s es') : Running s (es ++ es') := by
  intro e he
  rcases List.mem_append.mp he with he | he
  · exact h e he
  · exact h' e he

/-- An open session is finished. -/
theorem Running.append_finished (h : Running s es) (h' : Finished s es') :
    Finished s (es ++ es') := by
  rcases h' with ⟨front, c, rfl, hfront, hc⟩
  exact ⟨es ++ front, c, (List.append_assoc es front [c]).symm, h.append hfront, hc⟩

/-- An open session is aborted. -/
theorem Running.append_aborted (h : Running s es) (h' : Aborted s es') :
    Aborted s (es ++ es') := by
  rcases h' with ⟨front, e, c, rfl, hfront, he, hc⟩
  exact ⟨es ++ front, e, c, (List.append_assoc es front [e, c]).symm, h.append hfront, he, hc⟩

/-- A session may close at once. -/
theorem finished_singleton {c : ε} (hc : s.closes c = true) : Finished s [c] :=
  ⟨[], c, rfl, running_nil, hc⟩

/-- A failure and the close behind it. -/
theorem aborted_pair {e c : ε} (he : s.fails e = true) (hc : s.closes c = true) :
    Aborted s [e, c] :=
  ⟨[], e, c, rfl, running_nil, he, hc⟩

/-! ## What an ended session is like -/

variable (s) in
/-- Closed by the last event and by no other. -/
def ClosedOnce (es : List ε) : Prop :=
  ∃ front c, es = front ++ [c] ∧ s.closes c = true ∧ ∀ e ∈ front, s.closes e = false

variable (s) in
/-- Nothing is done behind a failure. -/
def Quiet (es : List ε) : Prop :=
  es.Pairwise fun e e' => s.fails e = true → s.acts e' = false

/-- A failure is not a close. -/
theorem not_closes_of_fails {e : ε} (he : s.fails e = true) : s.closes e = false := by
  cases hc : s.closes e with
  | false => rfl
  | true => exact absurd (he.symm.trans (s.fails_of_closes e hc)) Bool.noConfusion

/-- A session that has ended was closed once, at its end. -/
theorem Ended.closedOnce (h : Ended s es) : ClosedOnce s es := by
  rcases h with ⟨front, c, rfl, hfront, hc⟩ | ⟨front, e, c, rfl, hfront, he, hc⟩
  · exact ⟨front, c, rfl, hc, fun e he => (hfront e he).2⟩
  · refine ⟨front ++ [e], c, (List.append_assoc front [e] [c]).symm, hc, ?_⟩
    intro e' he'
    rcases List.mem_append.mp he' with he' | he'
    · exact (hfront e' he').2
    · rcases List.mem_singleton.mp he' with rfl
      exact not_closes_of_fails he

/-- What follows an open session is quiet when it is quiet itself. -/
theorem Running.quiet_append (h : Running s es) (h' : Quiet s es') : Quiet s (es ++ es') := by
  have hnone : ∀ e ∈ es, ¬ s.fails e = true := by
    intro e he hfails
    exact absurd ((h e he).1.symm.trans hfails) Bool.noConfusion
  apply List.pairwise_append.mpr
  refine ⟨?_, h', ?_⟩
  · apply List.pairwise_of_forall_mem_list
    intro e he e' _ hfails
    exact absurd hfails (hnone e he)
  · intro e he e' _ hfails
    exact absurd hfails (hnone e he)

/-- A session that has ended is quiet after a failure. -/
theorem Ended.quiet (h : Ended s es) : Quiet s es := by
  rcases h with ⟨front, c, rfl, hfront, -⟩ | ⟨front, e, c, rfl, hfront, -, hc⟩
  · exact hfront.quiet_append (List.pairwise_singleton _ c)
  · -- only the close follows the failure
    have hpair : Quiet s [e, c] := by
      unfold Quiet
      rw [List.pairwise_pair]
      exact fun _ => s.acts_of_closes c hc
    exact hfront.quiet_append hpair

/-- A finished session has no failure. -/
theorem Finished.forall_not_fails (h : Finished s es) : ∀ e ∈ es, s.fails e = false := by
  rcases h with ⟨front, c, rfl, hfront, hc⟩
  intro e he
  rcases List.mem_append.mp he with he | he
  · exact (hfront e he).1
  · rcases List.mem_singleton.mp he with rfl
    exact s.fails_of_closes e hc

/-- An aborted session has a failure. -/
theorem Aborted.exists_fails (h : Aborted s es) : ∃ e ∈ es, s.fails e = true := by
  rcases h with ⟨front, e, c, rfl, -, he, -⟩
  exact ⟨e, List.mem_append_right front List.mem_cons_self, he⟩

/-- An aborted session is not free of failures. -/
theorem Aborted.not_forall_not_fails (h : Aborted s es) : ¬ ∀ e ∈ es, s.fails e = false := by
  intro hall
  rcases h.exists_fails with ⟨e, he, hfails⟩
  exact absurd ((hall e he).symm.trans hfails) Bool.noConfusion

end Session
end Lib
end Ls2kMorse
