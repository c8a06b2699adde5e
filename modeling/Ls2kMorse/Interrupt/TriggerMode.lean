import Ls2kMorse.Interrupt.Liointc
import Ls2kMorse.Lib.Accumulate
import Mathlib.Data.Fintype.Order

/-!
# Trigger modes

`liointc_set_irq_mode` sets the trigger mode of a line in the polarity and the edge
register of its bank.  It does so by or-ing bits into the registers, in every branch,
and nothing clears them again: of two modes set one after the other the line has the
bits of both.

Main results:

- Theorem `bits_liointcSetIrqMode`: what a call does to the bits of every line.
- Theorem `lastModeHolds_iff`: when the lines have the mode that was last set.
-/

namespace Ls2kMorse
namespace Interrupt

open Lib.Trace

/-! ## The registers -/

/-- The mode constants, from a header outside the repository. -/
structure PinIrqModes where
  rising : Int
  falling : Int
  highLevel : Int
  lowLevel : Int

/-- The polarity and the edge register of a bank. -/
structure TriggerRegs where
  pol : BitVec 32
  edge : BitVec 32
deriving Repr, DecidableEq

/-- The trigger registers of both controllers. -/
structure Triggers where
  liointc0 : TriggerRegs
  liointc1 : TriggerRegs
deriving Repr, DecidableEq

/-- The trigger registers that `liointc_init` leaves. -/
def liointcInit : Triggers where
  liointc0 := ⟨0x0#32, 0x0#32⟩
  liointc1 := ⟨0x0#32, 0x0#32⟩

/-- Both registers with a value or-ed in at a bit. -/
def TriggerRegs.orAt (pol edge : BitVec 32) (bit : Nat) (r : TriggerRegs) : TriggerRegs where
  pol := r.pol ||| pol <<< bit
  edge := r.edge ||| edge <<< bit

/-- The branches of `liointc_set_irq_mode` for a bank. -/
def TriggerRegs.setMode (modes : PinIrqModes) (bit : Nat) (mode : Int) (r : TriggerRegs) :
    TriggerRegs :=
  if mode = modes.rising then r.orAt 0x0#32 0x1#32 bit
  else if mode = modes.falling then r.orAt 0x1#32 0x1#32 bit
  else if mode = modes.highLevel then r.orAt 0x1#32 0x0#32 bit
  else if mode = modes.lowLevel then r.orAt 0x0#32 0x0#32 bit
  else r.orAt 0x1#32 0x1#32 bit

/-- `liointc_set_irq_mode`: lines from 32 on belong to the second controller. -/
def liointcSetIrqMode (modes : PinIrqModes) (irq : Nat) (mode : Int) (s : Triggers) : Triggers :=
  if irq < 32 then { s with liointc0 := s.liointc0.setMode modes irq mode }
  else { s with liointc1 := s.liointc1.setMode modes (irq - 32) mode }

/-! ## Lines and their modes -/

/-- The bits of a line in the polarity and the edge register. -/
def TriggerRegs.bits (r : TriggerRegs) (bit : Nat) : Bool × Bool :=
  (r.pol.getLsbD bit, r.edge.getLsbD bit)

/-- The polarity and the edge bit of a line. -/
def Triggers.bits (s : Triggers) (irq : Nat) : Bool × Bool :=
  if irq < 32 then s.liointc0.bits irq else s.liointc1.bits (irq - 32)

/-- The bits that a mode stands for. -/
def encoding (modes : PinIrqModes) (mode : Int) : Bool × Bool :=
  if mode = modes.rising then (false, true)
  else if mode = modes.falling then (true, true)
  else if mode = modes.highLevel then (true, false)
  else if mode = modes.lowLevel then (false, false)
  else (true, true)

/-- A call for one of the 64 lines. -/
structure Setting where
  irq : Fin 64
  mode : Int
deriving Repr, DecidableEq

variable (modes : PinIrqModes)

/-- The registers after one call. -/
def Setting.exec (s : Triggers) (c : Setting) : Triggers :=
  liointcSetIrqMode modes c.irq c.mode s

/-- The bits that a call is to give to a line. -/
def Setting.sets (c : Setting) (irq : Fin 64) : Option (Bool × Bool) :=
  if c.irq = irq then some (encoding modes c.mode) else none

/-- The two bits of a line that exists. -/
def Triggers.get (s : Triggers) (irq : Fin 64) : Bool × Bool :=
  s.bits irq

/-- Behind every call of the history each line has the bits of the mode last set on
it, or none, and no call has changed another line. -/
def LastModeHolds (settings : List Setting) : Prop :=
  (∀ pre, pre <+: settings → ∀ irq,
    (pre.foldl (Setting.exec modes) liointcInit).get irq =
      lastSet (Setting.sets modes) (fun _ => (false, false)) pre irq) ∧
  ∀ pre c, pre ++ [c] <+: settings → ∀ irq, irq ≠ c.irq →
    ((pre ++ [c]).foldl (Setting.exec modes) liointcInit).get irq =
      (pre.foldl (Setting.exec modes) liointcInit).get irq

/-! ## One call -/

/-- Or-ing one bit is seen at that bit only. -/
theorem bits_orAt (r : TriggerRegs) (pol edge : Bool) {bit : Nat} (hbit : bit < 32) (b : Nat) :
    (r.orAt (if pol then 1#32 else 0#32) (if edge then 1#32 else 0#32) bit).bits b =
      if b = bit then r.bits b ⊔ (pol, edge) else r.bits b := by
  have hword : ∀ (x : BitVec 32) (v : Bool),
      (x ||| (if v then 1#32 else 0#32) <<< bit).getLsbD b =
        if b = bit then x.getLsbD b ⊔ v else x.getLsbD b := by
    intro x v
    cases v with
    | true =>
        rw [if_pos rfl, Lib.Bits.getLsbD_or_mask x hbit b]
        by_cases hb : b = bit
        · simp [hb]
        · simp [hb]
    | false => simp
  unfold TriggerRegs.orAt TriggerRegs.bits
  rw [hword, hword]
  by_cases hb : b = bit
  · simp only [if_pos hb]
    rfl
  · simp only [if_neg hb]

/-- A call only sets bits. -/
theorem setMode_eq (bit : Nat) (mode : Int) (r : TriggerRegs) :
    r.setMode modes bit mode =
      r.orAt (if (encoding modes mode).1 then 1#32 else 0#32)
        (if (encoding modes mode).2 then 1#32 else 0#32) bit := by
  unfold TriggerRegs.setMode encoding
  by_cases hrising : mode = modes.rising
  · simp only [if_pos hrising, if_true, Bool.false_eq_true, if_false]
  · by_cases hfalling : mode = modes.falling
    · simp only [if_neg hrising, if_pos hfalling, if_true]
    · by_cases hhigh : mode = modes.highLevel
      · simp only [if_neg hrising, if_neg hfalling, if_pos hhigh, if_true, Bool.false_eq_true,
          if_false]
      · by_cases hlow : mode = modes.lowLevel
        · simp only [if_neg hrising, if_neg hfalling, if_neg hhigh, if_pos hlow,
            Bool.false_eq_true, if_false]
        · simp only [if_neg hrising, if_neg hfalling, if_neg hhigh, if_neg hlow, if_true]

/-- A call or-es the bits of the mode into those of its line and leaves the others. -/
theorem bits_liointcSetIrqMode {irq irq' : Nat} (hirq : irq < 64) (hirq' : irq' < 64)
    (mode : Int) (s : Triggers) :
    (liointcSetIrqMode modes irq mode s).bits irq' =
      if irq' = irq then s.bits irq' ⊔ encoding modes mode else s.bits irq' := by
  unfold liointcSetIrqMode Triggers.bits
  by_cases hbank : irq < 32
  · rw [if_pos hbank]
    by_cases hbank' : irq' < 32
    · simp only [if_pos hbank', setMode_eq, bits_orAt _ _ _ hbank]
    · have hne : irq' ≠ irq := by omega
      simp only [if_neg hbank', if_neg hne]
  · rw [if_neg hbank]
    have hbit : irq - 32 < 32 := by omega
    by_cases hbank' : irq' < 32
    · have hne : irq' ≠ irq := by omega
      simp only [if_pos hbank', if_neg hne]
    · have heq : irq' - 32 = irq - 32 ↔ irq' = irq := by omega
      simp only [if_neg hbank', setMode_eq, bits_orAt _ _ _ hbit, heq]

/-! ## Histories -/

/-- Each call joins its bits to those of the line. -/
theorem setting_joins : Joins (Setting.exec modes) Triggers.get (Setting.sets modes) := by
  intro s c irq
  unfold Setting.exec Triggers.get Setting.sets
  rw [bits_liointcSetIrqMode modes c.irq.isLt irq.isLt]
  by_cases hirq : c.irq = irq
  · rw [if_pos hirq, if_pos (congrArg Fin.val hirq.symm)]
    rfl
  · have hne : (irq : Nat) ≠ c.irq := fun h => hirq (Fin.ext h.symm)
    rw [if_neg hirq, if_neg hne]
    rfl

/-- A later mode of a line has the bits of an earlier one. -/
def Keeps (c c' : Setting) : Prop :=
  c.irq = c'.irq → encoding modes c.mode ≤ encoding modes c'.mode

/-- The bits of a later call contain those of an earlier one exactly when it keeps the
mode. -/
theorem contains_iff_keeps (c c' : Setting) :
    Contains (Setting.sets modes) c c' ↔ Keeps modes c c' := by
  constructor
  · intro h hirq
    exact h c.irq _ _ (if_pos rfl) (if_pos hirq.symm)
  · intro h irq v w hv hw
    unfold Setting.sets at hv hw
    by_cases hirq : c.irq = irq
    · by_cases hirq' : c'.irq = irq
      · rw [if_pos hirq, Option.some.injEq] at hv
        rw [if_pos hirq', Option.some.injEq] at hw
        rw [← hv, ← hw]
        exact h (hirq.trans hirq'.symm)
      · rw [if_neg hirq'] at hw
        exact absurd hw (Option.some_ne_none w).symm
    · rw [if_neg hirq] at hv
      exact absurd hv (Option.some_ne_none v).symm

/-- After the initialisation no bit is set. -/
theorem get_liointcInit (irq : Fin 64) : liointcInit.get irq = (false, false) := by
  have hbits : ∀ bit, (TriggerRegs.mk 0x0#32 0x0#32).bits bit = (false, false) := by
    intro bit
    simp [TriggerRegs.bits]
  unfold Triggers.get Triggers.bits liointcInit
  rw [hbits, hbits, ite_self]

/-- No call changes another line. -/
theorem get_exec_of_ne (s : Triggers) {c : Setting} {irq : Fin 64} (hirq : irq ≠ c.irq) :
    (c.exec modes s).get irq = s.get irq := by
  have hjoin := setting_joins modes s c irq
  rw [Setting.sets, if_neg hirq.symm] at hjoin
  exact hjoin

/-- The lines have the mode that was last set on them throughout a history, exactly
when every mode has the bits of all modes set on its line before. -/
theorem lastModeHolds_iff (settings : List Setting) :
    LastModeHolds modes settings ↔ settings.Pairwise (Keeps modes) := by
  have hinit : liointcInit.get = fun _ => (false, false) := funext get_liointcInit
  have hholds := along_assignsOwn_iff_of_joins (setting_joins modes) liointcInit settings
  rw [← holds_lastSet_iff] at hholds
  have hzero : ∀ c ∈ settings, ∀ irq v, Setting.sets modes c irq = some v →
      liointcInit.get irq ≤ v := by
    intro c _ irq v _
    rw [get_liointcInit]
    exact ⟨Bool.false_le v.1, Bool.false_le v.2⟩
  have hpairwise : settings.Pairwise (Contains (Setting.sets modes)) ↔
      settings.Pairwise (Keeps modes) :=
    List.Pairwise.iff (contains_iff_keeps modes)
  rw [and_iff_right hzero, hpairwise, hinit] at hholds
  unfold LastModeHolds
  rw [hholds]
  apply and_iff_left
  intro pre c _ irq hirq
  rw [List.foldl_append]
  exact get_exec_of_ne modes _ hirq

/-- The constants of the kernel's header. -/
def pinIrqModes : PinIrqModes where
  rising := 0
  falling := 1
  highLevel := 3
  lowLevel := 4

/-- A line set to the falling edge and then to the rising one keeps its polarity bit,
and stays at the falling edge. -/
theorem falling_then_rising :
    ([⟨0, 1⟩, ⟨0, 0⟩].foldl (Setting.exec pinIrqModes) liointcInit).get 0 = (true, true) ∧
      encoding pinIrqModes 0 = (false, true) ∧
      ¬ LastModeHolds pinIrqModes [⟨0, 1⟩, ⟨0, 0⟩] := by
  have hbits : ([⟨0, 1⟩, ⟨0, 0⟩].foldl (Setting.exec pinIrqModes) liointcInit).get 0 =
      (true, true) := by decide
  refine ⟨hbits, rfl, ?_⟩
  rintro ⟨hlast, -⟩
  have hline := hlast _ (List.prefix_refl _) 0
  rw [hbits] at hline
  exact absurd hline (by decide)

end Interrupt
end Ls2kMorse
