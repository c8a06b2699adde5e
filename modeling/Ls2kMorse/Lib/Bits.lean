import Mathlib.Data.List.Nodup
import Mathlib.Tactic.Common

/-!
# Single bits of a machine word

Drivers set, clear and scan single bits of status and control words.  This
module relates the shifted masks they use to the bit they address, and collects
the positions of the set bits of a word in ascending order.

Main results:

- Theorems `getLsbD_or_mask` and `getLsbD_and_not_mask`: a mask changes one bit.
- Theorem `mem_setBits`: the collected positions are those of the set bits.
- Theorem `setBits_eq_singleton`: a word with at most one set bit has a
  singleton collection.
-/

namespace Ls2kMorse
namespace Lib
namespace Bits

variable {w : Nat}

/-! ## Masks -/

/-- A shifted one has one bit. -/
theorem getLsbD_mask {b : Nat} (hb : b < w) (i : Nat) :
    (1#w <<< b).getLsbD i = decide (i = b) := by
  rw [← BitVec.twoPow_eq, BitVec.getLsbD_twoPow]
  by_cases hi : i = b
  · simp [hi, hb]
  · have hi' : b ≠ i := fun h => hi h.symm
    simp [hi, hi']

/-- Setting a bit through its mask. -/
theorem getLsbD_or_mask (x : BitVec w) {b : Nat} (hb : b < w) (i : Nat) :
    (x ||| 1#w <<< b).getLsbD i = (x.getLsbD i || decide (i = b)) := by
  rw [BitVec.getLsbD_or, getLsbD_mask hb]

/-- Clearing a bit through its mask. -/
theorem getLsbD_and_not_mask (x : BitVec w) {b : Nat} (hb : b < w) (i : Nat) :
    (x &&& ~~~(1#w <<< b)).getLsbD i = (x.getLsbD i && !decide (i = b)) := by
  rw [BitVec.getLsbD_and, BitVec.getLsbD_not, getLsbD_mask hb]
  by_cases hi : i < w
  · simp [hi]
  · simp [BitVec.getLsbD_of_ge x i (Nat.le_of_not_lt hi)]

/-- Setting bits outside a mask is not seen through it. -/
theorem or_and_of_disjoint {x y m : BitVec w} (h : y &&& m = 0#w) : (x ||| y) &&& m = x &&& m := by
  rw [BitVec.and_or_distrib_right, h, BitVec.or_zero]

/-- A part of a mask shows a part of what the mask shows. -/
theorem and_eq_and_of_mask {x y m m' : BitVec w} (hsub : m &&& m' = m') (h : x &&& m = y &&& m) :
    x &&& m' = y &&& m' := by
  rw [← hsub, ← BitVec.and_assoc, ← BitVec.and_assoc, h]

/-! ## Positions of the set bits -/

/-- The positions of the set bits, in ascending order. -/
def setBits (x : BitVec w) : List Nat :=
  (List.range w).filter fun b => x.getLsbD b

/-- A bit is listed exactly when it is set. -/
theorem mem_setBits {x : BitVec w} {b : Nat} : b ∈ setBits x ↔ x.getLsbD b = true := by
  unfold setBits
  rw [List.mem_filter, List.mem_range]
  constructor
  · exact fun h => h.2
  · exact fun h => ⟨BitVec.lt_of_getLsbD h, h⟩

/-- No bit is listed twice. -/
theorem setBits_nodup (x : BitVec w) : (setBits x).Nodup :=
  List.Nodup.filter _ List.nodup_range

/-- A word without set bits is zero. -/
theorem setBits_eq_nil_iff {x : BitVec w} : setBits x = [] ↔ x = 0#w := by
  constructor
  · intro h
    apply BitVec.eq_of_getLsbD_eq
    intro i _
    rw [BitVec.getLsbD_zero, ← Bool.not_eq_true, ← mem_setBits, h]
    exact List.not_mem_nil
  · rintro rfl
    rw [List.eq_nil_iff_forall_not_mem]
    intro b hb
    rw [mem_setBits, BitVec.getLsbD_zero] at hb
    exact Bool.noConfusion hb

/-- With at most one set bit, every set bit is that bit. -/
theorem setBits_eq_singleton {x : BitVec w} {b : Nat} (hb : x.getLsbD b = true)
    (hcount : (setBits x).length ≤ 1) : setBits x = [b] := by
  have hmem : b ∈ setBits x := mem_setBits.mpr hb
  cases hbits : setBits x with
  | nil =>
      rw [hbits] at hmem
      exact absurd hmem List.not_mem_nil
  | cons b' bs =>
      rw [hbits] at hmem hcount
      have hbs : bs = [] := by
        simpa using hcount
      rw [hbs, List.mem_singleton] at hmem
      rw [hbs, hmem]

/-- With at least two set bits, there is a set bit beside any given one. -/
theorem exists_ne_of_two_le {x : BitVec w} (b : Nat) (hcount : 2 ≤ (setBits x).length) :
    ∃ b', x.getLsbD b' = true ∧ b' ≠ b := by
  have hnodup := setBits_nodup x
  cases hbits : setBits x with
  | nil =>
      simp [hbits] at hcount
  | cons b₁ bs =>
      cases bs with
      | nil =>
          simp [hbits] at hcount
      | cons b₂ bs =>
          have h₁ : x.getLsbD b₁ = true := mem_setBits.mp (by simp [hbits])
          have h₂ : x.getLsbD b₂ = true := mem_setBits.mp (by simp [hbits])
          rw [hbits] at hnodup
          have hne : b₁ ≠ b₂ := by
            intro h
            exact (List.nodup_cons.mp hnodup).1 (by rw [h]; exact List.mem_cons_self)
          by_cases hb : b₁ = b
          · exact ⟨b₂, h₂, fun h => hne (hb.trans h.symm)⟩
          · exact ⟨b₁, h₁, hb⟩

end Bits
end Lib
end Ls2kMorse
