import Mathlib.Algebra.Order.Ring.Int
import Mathlib.Tactic.Common

/-!
# Signed words of 32 bits

As long as its result is in range, an operation on signed words of 32 bits has the value
of the operation on integers.

Main results:

- Theorems `toInt_neg_of_range`, `toInt_add_of_range` and `toInt_sub_of_range`: sums and
  differences.
- Theorems `toInt_shiftLeft` and `toInt_shiftRight`: shifts by less than 32 places.
-/

namespace Ls2kMorse
namespace Lib
namespace SignedWord

/-- An integer that 32 bits hold. -/
def Fits (x : Int) : Prop :=
  -0x80000000 ≤ x ∧ x < 0x80000000

/-- The value of a word fits. -/
theorem fits_toInt (x : Int32) : Fits x.toInt :=
  ⟨Int32.le_toInt x, Int32.toInt_lt x⟩

/-- An integer that 32 bits hold is not cut. -/
theorem Fits.bmod {x : Int} (h : Fits x) : x.bmod 4294967296 = x := by
  unfold Fits at h
  rw [Int.bmod_def]
  split_ifs <;> omega

/-- A number that fits goes into a word and back. -/
theorem Fits.toInt_ofInt {x : Int} (h : Fits x) : (Int32.ofInt x).toInt = x := by
  rw [Int32.toInt_ofInt]
  exact h.bmod

/-- A negation that fits does not wrap. -/
theorem toInt_neg_of_range {x : Int32} (h : Fits (-x.toInt)) : (-x).toInt = -x.toInt := by
  rw [Int32.toInt_neg]
  exact h.bmod

/-- A sum that fits does not wrap. -/
theorem toInt_add_of_range {x y : Int32} (h : Fits (x.toInt + y.toInt)) :
    (x + y).toInt = x.toInt + y.toInt := by
  rw [Int32.toInt_add]
  exact h.bmod

/-- A difference that fits does not wrap. -/
theorem toInt_sub_of_range {x y : Int32} (h : Fits (x.toInt - y.toInt)) :
    (x - y).toInt = x.toInt - y.toInt := by
  rw [Int32.toInt_sub]
  exact h.bmod

/-- A quotient by a positive word, of a word that is not negative. -/
theorem toInt_div_of_nonneg {x y : Int32} (hx : 0 ≤ x.toInt) (hy : 0 < y.toInt) :
    (x / y).toInt = x.toInt / y.toInt := by
  have hle : x.toInt / y.toInt ≤ x.toInt := Int.ediv_le_self _ hx
  have hnonneg : 0 ≤ x.toInt / y.toInt := Int.ediv_nonneg hx hy.le
  have hfits : Fits (x.toInt / y.toInt) := by
    have hrange := fits_toInt x
    unfold Fits at *
    omega
  rw [Int32.toInt_div, Int.tdiv_eq_ediv_of_nonneg hx]
  exact hfits.bmod

/-- The number of places that a word is shifted by. -/
theorem smod_ofNat {k : Nat} (hk : k < 32) :
    (Int32.ofNat k).toBitVec.smod 32 = BitVec.ofNat 32 k := by
  have hall : ∀ k : Fin 32, (Int32.ofNat k).toBitVec.smod 32 = BitVec.ofNat 32 k := by decide
  exact hall ⟨k, hk⟩

/-- A left shift that fits does not wrap. -/
theorem toInt_shiftLeft {x : Int32} {k : Nat} (hk : k < 32) (h : Fits (x.toInt <<< k)) :
    (x <<< Int32.ofNat k).toInt = x.toInt <<< k := by
  have hplaces : (BitVec.ofNat 32 k).toNat = k := by
    rw [BitVec.toNat_ofNat]
    omega
  rw [← Int32.toInt_toBitVec, Int32.toBitVec_shiftLeft, smod_ofNat hk, BitVec.shiftLeft_eq',
    hplaces, BitVec.shiftLeft_eq_mul_twoPow, BitVec.toInt_mul,
    BitVec.toInt_eq_toNat_bmod (BitVec.twoPow 32 k), Int.mul_bmod_bmod,
    BitVec.toNat_twoPow_of_lt hk]
  have hpow : x.toBitVec.toInt * ((2 ^ k : Nat) : Int) = x.toInt <<< k := by
    rw [Int.shiftLeft_eq]
    rfl
  rw [hpow]
  exact h.bmod

/-- A right shift is the one of the value. -/
theorem toInt_shiftRight (x : Int32) {k : Nat} (hk : k < 32) :
    (x >>> Int32.ofNat k).toInt = x.toInt >>> k := by
  have hplaces : (BitVec.ofNat 32 k).toNat = k := by
    rw [BitVec.toNat_ofNat]
    omega
  rw [← Int32.toInt_toBitVec, Int32.toBitVec_shiftRight, BitVec.toInt_sshiftRight',
    smod_ofNat hk, hplaces]
  rfl

end SignedWord
end Lib
end Ls2kMorse
