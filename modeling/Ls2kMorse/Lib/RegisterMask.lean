import Mathlib.Logic.Function.Basic
import Mathlib.Tactic.Common

/-!
# Masked writes to a register file

Drivers set up a device by many small changes of its registers, each of which keeps some
bits and sets others.  Changes of this kind compose to one change of the same kind, so
that a whole sequence comes down to one mask for each register.

Main results:

- Theorem `run_apply`: a sequence of writes changes a register by its mask.
- Theorems `Mask.apply_and_of_keep` and `Mask.apply_and_of_not_keep`: the bits behind a change.
-/

namespace Ls2kMorse
namespace Lib
namespace RegisterMask

variable {w : Nat} {ρ : Type} [DecidableEq ρ]

/-- The bits that a change keeps and those that it sets; it clears all others. -/
@[ext]
structure Mask (w : Nat) where
  keep : BitVec w
  set : BitVec w
  disjoint : keep &&& set = 0#w
deriving DecidableEq

namespace Mask

/-- The value that a masked write leaves in the register. -/
def apply (m : Mask w) (x : BitVec w) : BitVec w :=
  (x &&& m.keep) ||| m.set

/-- The change that changes nothing. -/
def idle : Mask w :=
  ⟨BitVec.allOnes w, 0#w, by simp⟩

/-- `data |= bits`. -/
def setting (bits : BitVec w) : Mask w :=
  ⟨~~~bits, bits, by ext i hi; simp⟩

/-- `data &= ~bits`. -/
def clearing (bits : BitVec w) : Mask w :=
  ⟨~~~bits, 0#w, by simp⟩

/-- `data = value`. -/
def storing (value : BitVec w) : Mask w :=
  ⟨0#w, value, by simp⟩

/-- One change and then another. -/
def andThen (m n : Mask w) : Mask w where
  keep := m.keep &&& n.keep
  set := (m.set &&& n.keep) ||| n.set
  disjoint := by
    have hm := m.disjoint
    have hn := n.disjoint
    calc m.keep &&& n.keep &&& (m.set &&& n.keep ||| n.set)
        = (m.keep &&& m.set) &&& n.keep ||| m.keep &&& (n.keep &&& n.set) := by
          ext i hi
          simp only [BitVec.getElem_and, BitVec.getElem_or]
          cases m.keep[i] <;> cases n.keep[i] <;> simp
      _ = 0#w := by rw [hm, hn]; simp

@[simp]
theorem apply_idle (x : BitVec w) : idle.apply x = x := by
  simp [apply, idle]

/-- Setting bits is an or. -/
theorem apply_setting (bits x : BitVec w) : (setting bits).apply x = x ||| bits := by
  ext i hi
  simp only [apply, setting, BitVec.getElem_or, BitVec.getElem_and, BitVec.getElem_not]
  cases x[i] <;> cases bits[i] <;> rfl

/-- Storing forgets the old value. -/
theorem apply_storing (value x : BitVec w) : (storing value).apply x = value := by
  simp [apply, storing]

/-- Two masked writes in a row are one. -/
theorem apply_andThen (m n : Mask w) (x : BitVec w) :
    (m.andThen n).apply x = n.apply (m.apply x) := by
  simp only [apply, andThen]
  rw [BitVec.and_or_distrib_right, BitVec.or_assoc, BitVec.and_assoc]

/-- Bits that a change does not keep are what it makes of them. -/
theorem apply_and_of_not_keep {m : Mask w} {bits : BitVec w} (h : m.keep &&& bits = 0#w)
    (x : BitVec w) : m.apply x &&& bits = m.set &&& bits := by
  rw [apply, BitVec.and_or_distrib_right, BitVec.and_assoc, h]
  simp

/-- Bits that a change keeps are as before, or set. -/
theorem apply_and_of_keep {m : Mask w} {bits : BitVec w} (h : m.keep &&& bits = bits)
    (x : BitVec w) : m.apply x &&& bits = (x &&& bits) ||| (m.set &&& bits) := by
  rw [apply, BitVec.and_or_distrib_right, BitVec.and_assoc, h]

end Mask

/-- A change of one register. -/
structure Write (ρ : Type) (w : Nat) where
  reg : ρ
  mask : Mask w

/-- A register with bits set. -/
def setBits (reg : ρ) (bits : BitVec w) : Write ρ w :=
  ⟨reg, Mask.setting bits⟩

/-- A register with bits cleared. -/
def clearBits (reg : ρ) (bits : BitVec w) : Write ρ w :=
  ⟨reg, Mask.clearing bits⟩

/-- A register with the bits of a field replaced. -/
def replaceBits (reg : ρ) (bits value : BitVec w) : Write ρ w :=
  ⟨reg, (Mask.clearing bits).andThen (Mask.setting value)⟩

/-- A register that is overwritten. -/
def writeReg (reg : ρ) (value : BitVec w) : Write ρ w :=
  ⟨reg, Mask.storing value⟩

/-- The registers behind a sequence of writes. -/
def run (writes : List (Write ρ w)) (regs : ρ → BitVec w) : ρ → BitVec w :=
  writes.foldl (fun regs x => Function.update regs x.reg (x.mask.apply (regs x.reg))) regs

/-- What a sequence of writes does to a register. -/
def masks : List (Write ρ w) → ρ → Mask w
  | [], _ => Mask.idle
  | x :: writes, r =>
      if x.reg = r then x.mask.andThen (masks writes r) else masks writes r

/-- A list of writes acts on each register by one mask. -/
theorem run_apply (writes : List (Write ρ w)) (regs : ρ → BitVec w) (r : ρ) :
    run writes regs r = (masks writes r).apply (regs r) := by
  induction writes generalizing regs with
  | nil => simp [run, masks]
  | cons x writes ih =>
      have hrest : run (x :: writes) regs =
          run writes (Function.update regs x.reg (x.mask.apply (regs x.reg))) := rfl
      rw [hrest, ih, masks]
      by_cases hreg : x.reg = r
      · rw [if_pos hreg, Mask.apply_andThen, ← hreg, Function.update_self]
      · rw [if_neg hreg, Function.update_of_ne (Ne.symm hreg)]

/-- A register that no write names keeps its value. -/
theorem run_of_not_mem {writes : List (Write ρ w)} {r : ρ} (h : ∀ x ∈ writes, x.reg ≠ r)
    (regs : ρ → BitVec w) : run writes regs r = regs r := by
  induction writes generalizing regs with
  | nil => rfl
  | cons x writes ih =>
      have hrest : run (x :: writes) regs r =
          run writes (Function.update regs x.reg (x.mask.apply (regs x.reg))) r := rfl
      rw [hrest, ih fun y hy => h y (List.mem_cons_of_mem x hy)]
      exact Function.update_of_ne (Ne.symm (h x List.mem_cons_self)) _ _

end RegisterMask
end Lib
end Ls2kMorse
