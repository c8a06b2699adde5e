import Mathlib.Data.List.Basic
import Mathlib.Data.List.Nodup
import Mathlib.Logic.Function.Basic
import Mathlib.Tactic.Common

/-!
# Windows of a ring

A ring buffer keeps its elements in a window of a fixed number of slots: the
window begins at some slot and goes round behind the last one.  This module
describes a window by its first slot and its length, reads it as a list, and says
what storing behind it and dropping its first slot do to that list.

Main results:

- Theorem `slot_injective`: a window of at most all slots visits none twice.
- Theorem `countP_slots`: the slots with a property are counted by the window of them.
- Theorem `window_push`: a store into the slot behind a window appends to its list.
- Theorem `window_pop`: a window is its first slot and the window behind it.
-/

namespace Ls2kMorse
namespace Lib
namespace Ring

variable {α : Type}

/-- The slot that comes `j` places behind slot `t` of a ring of `n` slots. -/
def slot (n t j : Nat) : Nat :=
  (t + j) % n

/-- A slot lies in the ring. -/
theorem slot_lt {n : Nat} (hn : 0 < n) (t j : Nat) : slot n t j < n :=
  Nat.mod_lt _ hn

/-- The first slot is where the window begins. -/
theorem slot_zero {n t : Nat} (ht : t < n) : slot n t 0 = t :=
  Nat.mod_eq_of_lt ht

/-- Going one place further. -/
theorem slot_succ (n t j : Nat) : slot n t (j + 1) = (slot n t j + 1) % n := by
  unfold slot
  rw [Nat.mod_add_mod, Nat.add_assoc]

/-- Starting one place later. -/
theorem slot_next (n t j : Nat) : slot n ((t + 1) % n) j = slot n t (j + 1) := by
  unfold slot
  rw [Nat.mod_add_mod, Nat.add_assoc, Nat.add_comm 1 j]

/-- The next slot is the successor, or the first one behind the last. -/
theorem next_eq {n t : Nat} (ht : t < n) : (t + 1) % n = if t = n - 1 then 0 else t + 1 := by
  by_cases hlast : t = n - 1
  · have hwrap : t + 1 = n := by omega
    rw [if_pos hlast, hwrap, Nat.mod_self]
  · rw [if_neg hlast]
    exact Nat.mod_eq_of_lt (by omega)

/-- Different places of a window are different slots. -/
theorem slot_injective {n t j j' : Nat} (ht : t < n) (hj : j < n) (hj' : j' < n)
    (h : slot n t j = slot n t j') : j = j' := by
  unfold slot at h
  have hmod : ∀ k, k < n → (t + k) % n = t + k ∨ (t + k) % n + n = t + k := by
    intro k hk
    rcases Nat.lt_or_ge (t + k) n with hlt | hge
    · exact Or.inl (Nat.mod_eq_of_lt hlt)
    · right
      rw [Nat.mod_eq_sub_mod hge, Nat.mod_eq_of_lt (by omega)]
      omega
  rcases hmod j hj with hjm | hjm
  · rcases hmod j' hj' with hjm' | hjm'
    · omega
    · omega
  · rcases hmod j' hj' with hjm' | hjm'
    · omega
    · omega

/-- Every slot is a place of the window of all slots. -/
theorem exists_slot {n t i : Nat} (ht : t < n) (hi : i < n) : ∃ j, j < n ∧ slot n t j = i := by
  rcases Nat.lt_or_ge i t with hlt | hge
  · refine ⟨n - t + i, by omega, ?_⟩
    have hsum : t + (n - t + i) = n + i := by omega
    unfold slot
    rw [hsum, Nat.add_mod_left, Nat.mod_eq_of_lt hi]
  · refine ⟨i - t, by omega, ?_⟩
    unfold slot
    rw [Nat.add_sub_cancel' hge, Nat.mod_eq_of_lt hi]

/-- The slots of the ring, listed from slot `t` on, are all slots. -/
theorem map_slot_perm {n t : Nat} (ht : t < n) :
    ((List.range n).map (slot n t)).Perm (List.range n) := by
  have hnodup : ((List.range n).map (slot n t)).Nodup := by
    apply List.Nodup.map_on _ List.nodup_range
    intro j hj j' hj' heq
    exact slot_injective ht (List.mem_range.mp hj) (List.mem_range.mp hj') heq
  rw [List.perm_ext_iff_of_nodup hnodup List.nodup_range]
  intro i
  rw [List.mem_map, List.mem_range]
  constructor
  · intro hmem
    rcases hmem with ⟨j, -, hji⟩
    rw [← hji]
    exact slot_lt (Nat.zero_lt_of_lt ht) t j
  · intro hi
    rcases exists_slot ht hi with ⟨j, hj, hji⟩
    exact ⟨j, List.mem_range.mpr hj, hji⟩

/-- The number of slots in a window that is exactly the slots with a property. -/
theorem countP_slots {n t k : Nat} (ht : t < n) (hk : k ≤ n) {p : Nat → Bool}
    (hin : ∀ j, j < k → p (slot n t j) = true)
    (hout : ∀ j, k ≤ j → j < n → p (slot n t j) = false) : (List.range n).countP p = k := by
  rcases Nat.exists_eq_add_of_le hk with ⟨m, hm⟩
  have hfirst : (List.range k).countP (p ∘ slot n t) = k := by
    rw [List.countP_eq_length.mpr, List.length_range]
    intro j hj
    exact hin j (List.mem_range.mp hj)
  have hrest : ((List.range m).map (k + ·)).countP (p ∘ slot n t) = 0 := by
    rw [List.countP_eq_zero]
    intro j hj
    rcases List.mem_map.mp hj with ⟨i, hi, hij⟩
    have hi' := List.mem_range.mp hi
    rw [Function.comp_apply, hout j (by omega) (by omega)]
    exact Bool.false_ne_true
  rw [← (map_slot_perm ht).countP_eq, List.countP_map]
  generalize p ∘ slot n t = q at hfirst hrest ⊢
  rw [hm, List.range_add, List.countP_append, hfirst, hrest, Nat.add_zero]

/-- The contents of the `k` slots from slot `t` on. -/
def window (f : Nat → α) (n t k : Nat) : List α :=
  (List.range k).map fun j => f (slot n t j)

/-- A value of the window stands in one of its slots. -/
theorem mem_window {f : Nat → α} {n t k : Nat} {v : α} :
    v ∈ window f n t k ↔ ∃ j, j < k ∧ f (slot n t j) = v := by
  simp [window]

/-- A window depends on its slots only. -/
theorem window_congr {f g : Nat → α} {n t k : Nat}
    (h : ∀ j, j < k → f (slot n t j) = g (slot n t j)) : window f n t k = window g n t k := by
  apply List.map_congr_left
  intro j hj
  exact h j (List.mem_range.mp hj)

/-- A store into the slot behind a window appends to its list. -/
theorem window_push {f g : Nat → α} {n t k : Nat}
    (h : ∀ j, j < k → g (slot n t j) = f (slot n t j)) :
    window g n t (k + 1) = window f n t k ++ [g (slot n t k)] := by
  unfold window
  rw [List.range_succ, List.map_append, List.map_singleton]
  congr 1
  apply List.map_congr_left
  intro j hj
  exact h j (List.mem_range.mp hj)

/-- A window is its first slot and the window that starts one place later. -/
theorem window_pop {f : Nat → α} {n t : Nat} (ht : t < n) (k : Nat) :
    window f n t (k + 1) = f t :: window f n ((t + 1) % n) k := by
  unfold window
  rw [List.range_succ_eq_map, List.map_cons, List.map_map, slot_zero ht]
  congr 1
  apply List.map_congr_left
  intro j _
  exact congrArg f (slot_next n t j).symm

/-- A window of distinct elements holds each of them in one slot. -/
theorem slot_unique_of_nodup {f : Nat → α} {n t k j j' : Nat} (h : (window f n t k).Nodup)
    (hj : j < k) (hj' : j' < k) (heq : f (slot n t j) = f (slot n t j')) : j = j' := by
  unfold window at h
  have hinj := (List.nodup_map_iff_inj_on (List.nodup_range)).mp h
  exact hinj j (List.mem_range.mpr hj) j' (List.mem_range.mpr hj') heq

end Ring
end Lib
end Ls2kMorse
