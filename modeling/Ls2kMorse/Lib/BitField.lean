import Mathlib.Algebra.Order.Ring.Nat
import Mathlib.Data.Nat.Digits.Defs
import Mathlib.Tactic.Common

/-!
# Fields of a machine word

A word is packed by shifting it left and or-ing the next field into the bits that
have become free, from the highest field down to the lowest; a field is read back by
shifting the word right and masking it.  What the word held before has been shifted
out when the fields fill it.

Main results:

- Theorems `field_push_self` and `field_push_above`: the field pushed last is read at
  the bottom, and the others have moved up.
- Theorem `toNat_pushAll`: pushed one after another, digits give the number they write.
- Theorem `agrees_push_field`: pushing the fields of a word rebuilds it.
-/

namespace Ls2kMorse
namespace Lib
namespace BitField

variable {w : Nat}

/-- The mask of the low bits. -/
def mask (n : Nat) : BitVec w :=
  ~~~(~~~0#w <<< n)

/-- The `len` bits from place `lo` on. -/
def field (x : BitVec w) (lo len : Nat) : BitVec w :=
  (x >>> lo) &&& mask len

/-- The word moved up by `len` bits, with a value in them. -/
def push (x : BitVec w) (len : Nat) (v : BitVec w) : BitVec w :=
  x <<< len ||| v

/-- The word with the items of a list pushed into it. -/
def pushAll (x : BitVec w) (len : Nat) (vs : List (BitVec w)) : BitVec w :=
  vs.foldl (fun x v => push x len v) x

/-! ## Masks -/

/-- A mask has the low bits. -/
theorem getLsbD_mask (n i : Nat) : (mask n : BitVec w).getLsbD i = decide (i < w ∧ i < n) := by
  unfold mask
  by_cases hw : i < w
  · by_cases hn : i < n
    · simp [hw, hn]
    · simp [hw, hn]
  · simp [hw]

/-- Masking the low bits is a remainder. -/
theorem toNat_and_mask (x : BitVec w) (n : Nat) : (x &&& mask n).toNat = x.toNat % 2 ^ n := by
  apply Nat.eq_of_testBit_eq
  intro i
  rw [BitVec.testBit_toNat, BitVec.getLsbD_and, getLsbD_mask, Nat.testBit_mod_two_pow,
    BitVec.testBit_toNat]
  by_cases hw : i < w
  · simp [hw, Bool.and_comm]
  · simp [BitVec.getLsbD_of_ge x i (Nat.le_of_not_lt hw)]

/-- A field is a quotient and a remainder. -/
theorem toNat_field (x : BitVec w) (lo len : Nat) :
    (field x lo len).toNat = x.toNat / 2 ^ lo % 2 ^ len := by
  unfold field
  rw [toNat_and_mask, BitVec.toNat_ushiftRight, Nat.shiftRight_eq_div_pow]

/-- A field has no more bits than its length. -/
theorem field_lt (x : BitVec w) (lo len : Nat) : (field x lo len).toNat < 2 ^ len := by
  rw [toNat_field]
  exact Nat.mod_lt _ (Nat.two_pow_pos len)

/-! ## Pushing fields -/

theorem mul_add_mod (x : Nat) {v n : Nat} (hv : v < n) : (x * n + v) % n = v := by
  rw [Nat.mul_comm, Nat.mul_add_mod, Nat.mod_eq_of_lt hv]

theorem mul_add_div (x : Nat) {v n : Nat} (hv : v < n) : (x * n + v) / n = x := by
  rw [Nat.mul_comm, Nat.mul_add_div (Nat.zero_lt_of_lt hv), Nat.div_eq_of_lt hv, Nat.add_zero]

/-- A value that fits goes into the free bits. -/
theorem toNat_push (x : BitVec w) {len : Nat} {v : BitVec w} (hv : v.toNat < 2 ^ len) :
    (push x len v).toNat = (x.toNat * 2 ^ len + v.toNat) % 2 ^ w := by
  have hdisjoint : x <<< len &&& v = 0#w := by
    apply BitVec.eq_of_getLsbD_eq
    intro i hi
    rw [BitVec.getLsbD_and, BitVec.getLsbD_shiftLeft, BitVec.getLsbD_zero]
    by_cases hlen : i < len
    · simp [hlen]
    · have hhigh : v.getLsbD i = false := by
        rw [← BitVec.testBit_toNat]
        apply Nat.testBit_lt_two_pow
        exact Nat.lt_of_lt_of_le hv (Nat.pow_le_pow_right Nat.two_pos (Nat.le_of_not_lt hlen))
      simp [hhigh]
  unfold push
  rw [← BitVec.add_eq_or_of_and_eq_zero _ _ hdisjoint, BitVec.toNat_add, BitVec.toNat_shiftLeft,
    Nat.shiftLeft_eq, Nat.mod_add_mod]

/-- The items are the digits of a number, the highest one first, behind what the word
held before.  What does not fit has been shifted out. -/
theorem toNat_pushAll (x : BitVec w) {len : Nat} {vs : List (BitVec w)}
    (hvs : ∀ v ∈ vs, v.toNat < 2 ^ len) :
    (pushAll x len vs).toNat =
      (Nat.ofDigits (2 ^ len) (vs.map BitVec.toNat).reverse +
        (2 ^ len) ^ vs.length * x.toNat) % 2 ^ w := by
  induction vs generalizing x with
  | nil => simp [pushAll, Nat.mod_eq_of_lt x.isLt]
  | cons v vs ih =>
      have hv : v.toNat < 2 ^ len := hvs v List.mem_cons_self
      have hstep : pushAll x len (v :: vs) = pushAll (push x len v) len vs := rfl
      rw [hstep, ih (push x len v) fun v' hv' => hvs v' (List.mem_cons_of_mem v hv'),
        toNat_push x hv, ← Nat.add_mod_mod, Nat.mul_mod_mod, Nat.add_mod_mod, List.map_cons,
        Nat.ofDigits_reverse_cons, List.length_map, List.length_cons, Nat.pow_succ]
      congr 1
      ring

/-- The field pushed last is at the bottom. -/
theorem field_push_self (x : BitVec w) {len : Nat} {v : BitVec w} (hv : v.toNat < 2 ^ len)
    (hlen : len ≤ w) : field (push x len v) 0 len = v := by
  apply BitVec.eq_of_toNat_eq
  rw [toNat_field, toNat_push x hv, Nat.pow_zero, Nat.div_one,
    Nat.mod_mod_of_dvd _ (Nat.pow_dvd_pow 2 hlen), mul_add_mod _ hv]

/-- The other fields have moved up. -/
theorem field_push_above (x : BitVec w) {len : Nat} {v : BitVec w} (hv : v.toNat < 2 ^ len)
    (lo len' : Nat) (hfits : lo + len' + len ≤ w) :
    field (push x len v) (lo + len) len' = field x lo len' := by
  have hpow : 2 ^ w = 2 ^ (lo + len) * 2 ^ (w - (lo + len)) := by
    rw [← Nat.pow_add, Nat.add_sub_cancel' (by omega)]
  apply BitVec.eq_of_toNat_eq
  rw [toNat_field, toNat_field, toNat_push x hv, hpow, Nat.mod_mul_right_div_self,
    Nat.mod_mod_of_dvd _ (Nat.pow_dvd_pow 2 (by omega)), Nat.add_comm lo len, Nat.pow_add,
    ← Nat.div_div_eq_div_mul, mul_add_div _ hv]

/-- Two words with the same `n` low bits. -/
def Agrees (n : Nat) (x y : BitVec w) : Prop :=
  x.toNat % 2 ^ n = y.toNat % 2 ^ n

/-- Any two words agree on no bits. -/
theorem agrees_zero (x y : BitVec w) : Agrees 0 x y := by
  unfold Agrees
  rw [Nat.pow_zero, Nat.mod_one, Nat.mod_one]

/-- Words that agree on all bits are equal. -/
theorem Agrees.eq {x y : BitVec w} (h : Agrees w x y) : x = y := by
  apply BitVec.eq_of_toNat_eq
  unfold Agrees at h
  rwa [Nat.mod_eq_of_lt x.isLt, Nat.mod_eq_of_lt y.isLt] at h

/-- A word that has the high bits of another one in its low bits takes the field
below them. -/
theorem agrees_push_field (lo len : Nat) {n : Nat} {x y : BitVec w}
    (h : Agrees n x (y >>> (lo + len))) (hfits : n + len ≤ w) :
    Agrees (n + len) (push x len (field y lo len)) (y >>> lo) := by
  have hfield := field_lt y lo len
  unfold Agrees at h ⊢
  rw [BitVec.toNat_ushiftRight, Nat.shiftRight_eq_div_pow, Nat.pow_add,
    ← Nat.div_div_eq_div_mul] at h
  rw [toNat_push x hfield, Nat.mod_mod_of_dvd _ (Nat.pow_dvd_pow 2 hfits),
    BitVec.toNat_ushiftRight, Nat.shiftRight_eq_div_pow, Nat.add_comm n len, Nat.pow_add,
    Nat.mod_mul, Nat.mod_mul, mul_add_mod _ hfield, mul_add_div _ hfield, h, toNat_field]

end BitField
end Lib
end Ls2kMorse
