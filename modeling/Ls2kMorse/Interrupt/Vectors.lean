import Ls2kMorse.Interrupt.Liointc
import Ls2kMorse.Lib.Trace
import Mathlib.Logic.Function.Basic

/-!
# Vectors

A vector is delivered when its bit is enabled in its controller bank, the line of
the processor on which that bank is served is unmasked, and the handler table has an
entry for the bit.  Installing, unmasking, masking and dispatching each tell the
banks apart with a comparison of their own, and installing counts vector 32 to the
wrong one.

Main results:

- Theorems `table_run`, `enabled_run` and `unmasked_run`: what a history of calls
  leaves in the table, the enable masks and the processor.
- Theorem `deliverable_iff`: when every installed and unmasked vector can be
  delivered.
-/

namespace Ls2kMorse
namespace Interrupt

open Lib.Trace

/-! ## The functions -/

section Functions

variable {H P : Type}

/-- The handler table, the enable masks of the two banks, and which interrupt lines
of the processor are unmasked. -/
structure Vectors (H P : Type) where
  table : Vector (IrqDesc H P) MAX_INTR
  enable0 : BitVec 32
  enable1 : BitVec 32
  unmasked : Nat → Bool

/-- `rt_hw_interrupt_init`: every entry has the default handler, and writing ones to
the disable registers clears the masks. -/
def rtHwInterruptInit (default : IrqDesc H P) : Vectors H P where
  table := Vector.replicate MAX_INTR default
  enable0 := 0x0#32
  enable1 := 0x0#32
  unmasked _ := false

/-- `mips_unmask_cpu_irq`. -/
def mipsUnmaskCpuIrq (ip : Nat) (s : Vectors H P) : Vectors H P :=
  { s with unmasked := Function.update s.unmasked ip true }

/-- The old handler and the new state. -/
def rtHwInterruptInstall (vector : Nat) (handler : H) (param : P) (s : Vectors H P) :
    Option H × Vectors H P :=
  let installed : Option H × Vectors H P :=
    if h : vector < MAX_INTR then
      (some (s.table.get ⟨vector, h⟩).handler,
        { s with table := s.table.set vector ⟨handler, param⟩ h })
    else (none, s)
  if vector ≤ 32 then (installed.1, mipsUnmaskCpuIrq 2 installed.2)
  else (installed.1, mipsUnmaskCpuIrq 3 installed.2)

/-- A write to an enable register sets bits of the mask. -/
def rtHwInterruptUmask (irq : Nat) (s : Vectors H P) : Vectors H P :=
  if irq < LIOINTC0_IRQBASE + 32 then { s with enable0 := s.enable0 ||| 1#32 <<< irq }
  else if irq < LIOINTC1_IRQBASE + 32 then
    { s with enable1 := s.enable1 ||| 1#32 <<< (irq - 32) }
  else s

/-- A write to a disable register clears bits of the mask. -/
def rtHwInterruptMask (irq : Nat) (s : Vectors H P) : Vectors H P :=
  if irq < LIOINTC0_IRQBASE + 32 then { s with enable0 := s.enable0 &&& ~~~(1#32 <<< irq) }
  else if irq < LIOINTC1_IRQBASE + 32 then
    { s with enable1 := s.enable1 &&& ~~~(1#32 <<< (irq - 32)) }
  else s

/-- What `rt_do_mips_cpu_irq` calls for a line of the processor. -/
inductive Service where
  | timer
  | liointc (bank : Bank)
  | none
deriving Repr, DecidableEq

/-- `rt_do_mips_cpu_irq`: which service an interrupt pending bit of the processor
gets. -/
def rtDoMipsCpuIrq (ip : Nat) : Service :=
  if ip = 7 then .timer
  else if ip = 2 then .liointc .liointc0
  else if ip = 3 then .liointc .liointc1
  else .none

/-- A call for one of the 64 vectors. -/
inductive VectorCall (H P : Type) where
  | install (vector : Fin MAX_INTR) (handler : H) (param : P)
  | umask (irq : Fin MAX_INTR)
  | mask (irq : Fin MAX_INTR)
deriving Repr, DecidableEq

/-- The table and the enable registers after one call. -/
def VectorCall.exec (s : Vectors H P) : VectorCall H P → Vectors H P
  | .install vector handler param => (rtHwInterruptInstall vector handler param s).2
  | .umask irq => rtHwInterruptUmask irq s
  | .mask irq => rtHwInterruptMask irq s

end Functions

/-! ## Delivery -/

section Delivery

variable {H P : Type}

/-- The entry that a call installs for a vector. -/
def VectorCall.installs : VectorCall H P → Fin MAX_INTR → Option (IrqDesc H P)
  | .install vector handler param, v => if vector = v then some ⟨handler, param⟩ else none
  | .umask _, _ | .mask _, _ => none

/-- Whether a call unmasks a vector or masks it. -/
def VectorCall.enables : VectorCall H P → Fin MAX_INTR → Option Bool
  | .umask irq, v => if irq = v then some true else none
  | .mask irq, v => if irq = v then some false else none
  | .install _ _ _, _ => none

/-- The last entry installed for a vector. -/
def lastInstalled (calls : List (VectorCall H P)) (v : Fin MAX_INTR) : Option (IrqDesc H P) :=
  calls.reverse.findSome? fun call => call.installs v

/-- Whether the last mask operation on a vector unmasked it. -/
def lastEnabled (calls : List (VectorCall H P)) (v : Fin MAX_INTR) : Option Bool :=
  calls.reverse.findSome? fun call => call.enables v

/-- The bank of a vector. -/
def bankOf (v : Fin MAX_INTR) : Bank :=
  if v.val < 32 then .liointc0 else .liointc1

/-- The bit of a vector in its bank. -/
def bitOf (v : Fin MAX_INTR) : Nat :=
  v.val - (bankOf v).irqBase

/-- The line of the processor for the bank of a vector. -/
def lineOf (v : Fin MAX_INTR) : Nat :=
  if v.val < 32 then 2 else 3

/-- The enable register of a controller. -/
def Vectors.enable (s : Vectors H P) : Bank → BitVec 32
  | .liointc0 => s.enable0
  | .liointc1 => s.enable1

/-- An interrupt of a vector reaches an entry: its bit is enabled in the bank that is
served on its line, the line is unmasked, and the dispatcher finds the entry for the
bit. -/
structure Delivers (s : Vectors H P) (v : Fin MAX_INTR) (desc : IrqDesc H P) : Prop where
  enabled : (s.enable (bankOf v)).getLsbD (bitOf v) = true
  served : rtDoMipsCpuIrq (lineOf v) = .liointc (bankOf v)
  unmasked : s.unmasked (lineOf v) = true
  entry : s.table[bitOf v + (bankOf v).irqBase]? = some desc

/-- Behind a history of calls, every vector that has been installed and was unmasked
last is delivered to what was last installed for it. -/
def Deliverable (default : IrqDesc H P) (calls : List (VectorCall H P)) : Prop :=
  ∀ v desc, lastInstalled calls v = some desc → lastEnabled calls v = some true →
    Delivers (calls.foldl VectorCall.exec (rtHwInterruptInit default)) v desc

/-! ## What a history leaves -/

/-- The entry of a vector in the table. -/
def Vectors.entry (s : Vectors H P) (v : Fin MAX_INTR) : IrqDesc H P :=
  s.table[v.val]

/-- The enable bit of a vector. -/
def Vectors.enabled (s : Vectors H P) (v : Fin MAX_INTR) : Bool :=
  (s.enable (bankOf v)).getLsbD (bitOf v)

/-- The line of the processor that installing a vector unmasks. -/
def VectorCall.unmasks : VectorCall H P → Option Nat
  | .install vector _ _ => some (if vector.val ≤ 32 then 2 else 3)
  | .umask _ | .mask _ => none

/-- Installing a vector changes its entry and unmasks one line. -/
theorem install_exec (s : Vectors H P) (vector : Fin MAX_INTR) (handler : H) (param : P) :
    VectorCall.exec s (.install vector handler param) =
      { s with
        table := s.table.set vector.val ⟨handler, param⟩ vector.isLt
        unmasked := Function.update s.unmasked (if vector.val ≤ 32 then 2 else 3) true } := by
  have hlt : vector.val < MAX_INTR := vector.isLt
  unfold VectorCall.exec rtHwInterruptInstall
  by_cases hline : vector.val ≤ 32
  · simp only [hlt, dite_true, if_pos hline, mipsUnmaskCpuIrq]
  · simp only [hlt, dite_true, if_neg hline, mipsUnmaskCpuIrq]

/-- The controller and the bit of a vector. -/
theorem bitOf_cases (v : Fin MAX_INTR) :
    (v.val < 32 ∧ bankOf v = .liointc0 ∧ bitOf v = v.val) ∨
      (32 ≤ v.val ∧ bankOf v = .liointc1 ∧ v.val = bitOf v + 32) := by
  by_cases hbank : v.val < 32
  · have hbankOf : bankOf v = .liointc0 := if_pos hbank
    refine Or.inl ⟨hbank, hbankOf, ?_⟩
    rw [bitOf, hbankOf]
    rfl
  · have hbankOf : bankOf v = .liointc1 := if_neg hbank
    refine Or.inr ⟨Nat.le_of_not_lt hbank, hbankOf, ?_⟩
    rw [bitOf, hbankOf, Bank.irqBase, LIOINTC1_IRQBASE]
    omega

/-- A controller has 32 bits. -/
theorem bitOf_lt (v : Fin MAX_INTR) : bitOf v < 32 := by
  have hlt : v.val < 64 := v.isLt
  rcases bitOf_cases v with ⟨hbank, -, hbit⟩ | ⟨-, -, hbit⟩
  · omega
  · omega

/-- Vectors of one bank have different bits. -/
theorem bitOf_eq_iff {v v' : Fin MAX_INTR} (hbank : bankOf v = bankOf v') :
    bitOf v = bitOf v' ↔ v = v' := by
  rw [Fin.ext_iff]
  rcases bitOf_cases v with ⟨-, h, hbit⟩ | ⟨-, h, hbit⟩
  · rcases bitOf_cases v' with ⟨-, h', hbit'⟩ | ⟨-, h', hbit'⟩
    · omega
    · exact absurd (h.symm.trans (hbank.trans h')) Bank.noConfusion
  · rcases bitOf_cases v' with ⟨-, h', hbit'⟩ | ⟨-, h', hbit'⟩
    · exact absurd (h.symm.trans (hbank.trans h')) Bank.noConfusion
    · omega

/-- What the mask operations have in common: the bit of a vector is changed in the mask
of its bank. -/
def Vectors.onEnable (f : BitVec 32 → Nat → BitVec 32) (irq : Nat) (s : Vectors H P) :
    Vectors H P :=
  if irq < LIOINTC0_IRQBASE + 32 then { s with enable0 := f s.enable0 irq }
  else if irq < LIOINTC1_IRQBASE + 32 then { s with enable1 := f s.enable1 (irq - 32) }
  else s

/-- Unmasking sets the bit of the vector. -/
theorem umask_eq_onEnable (irq : Nat) (s : Vectors H P) :
    rtHwInterruptUmask irq s = s.onEnable (fun x b => x ||| 1#32 <<< b) irq :=
  rfl

/-- Masking clears the bit of the vector. -/
theorem mask_eq_onEnable (irq : Nat) (s : Vectors H P) :
    rtHwInterruptMask irq s = s.onEnable (fun x b => x &&& ~~~(1#32 <<< b)) irq :=
  rfl

section OnEnable

variable (f : BitVec 32 → Nat → BitVec 32) (s : Vectors H P)

/-- The mask operations leave the table and the processor alone. -/
theorem onEnable_frame (irq : Nat) :
    (s.onEnable f irq).table = s.table ∧ (s.onEnable f irq).unmasked = s.unmasked := by
  unfold Vectors.onEnable
  by_cases h0 : irq < LIOINTC0_IRQBASE + 32
  · rw [if_pos h0]
    exact ⟨rfl, rfl⟩
  · by_cases h1 : irq < LIOINTC1_IRQBASE + 32
    · rw [if_neg h0, if_pos h1]
      exact ⟨rfl, rfl⟩
    · rw [if_neg h0, if_neg h1]
      exact ⟨rfl, rfl⟩

/-- A call on a vector changes the register of its own controller only. -/
theorem enable_onEnable (irq : Fin MAX_INTR) (bank : Bank) :
    (s.onEnable f irq).enable bank =
      if bankOf irq = bank then f (s.enable bank) (bitOf irq) else s.enable bank := by
  have hlt : irq.val < 64 := irq.isLt
  unfold Vectors.onEnable LIOINTC0_IRQBASE LIOINTC1_IRQBASE
  rcases bitOf_cases irq with ⟨hirq, hbank, hbit⟩ | ⟨hirq, hbank, hbit⟩
  · rw [if_pos (by omega), hbank, hbit]
    cases bank with
    | liointc0 => rfl
    | liointc1 => rfl
  · have hbit' : irq.val - 32 = bitOf irq := by omega
    rw [if_neg (by omega), if_pos (by omega), hbank, hbit']
    cases bank with
    | liointc0 => rfl
    | liointc1 => rfl

/-- An operation on one bit of a mask changes that of its own vector. -/
theorem enabled_onEnable {f : BitVec 32 → Nat → BitVec 32} {g : Bool → Bool → Bool}
    (hf : ∀ (x : BitVec 32) {i : Nat}, i < 32 → ∀ j,
      (f x i).getLsbD j = g (x.getLsbD j) (decide (j = i)))
    (hg : ∀ b, g b false = b) (irq v : Fin MAX_INTR) :
    (s.onEnable f irq).enabled v = g (s.enabled v) (decide (irq = v)) := by
  unfold Vectors.enabled
  rw [enable_onEnable]
  by_cases hbank : bankOf irq = bankOf v
  · have heq : bitOf v = bitOf irq ↔ irq = v := eq_comm.trans (bitOf_eq_iff hbank)
    rw [if_pos hbank, hf _ (bitOf_lt irq)]
    simp only [heq]
  · have hne : irq ≠ v := fun h => hbank (congrArg bankOf h)
    rw [if_neg hbank, decide_eq_false hne, hg]

end OnEnable

/-- A mask operation changes the bit of its own vector only. -/
theorem assignsOwn_enables (s : Vectors H P) (call : VectorCall H P) :
    AssignsOwn VectorCall.exec Vectors.enabled VectorCall.enables s call := by
  intro v
  cases call with
  | install vector handler param =>
      rw [install_exec]
      unfold Vectors.enabled
      cases bankOf v with
      | liointc0 => rfl
      | liointc1 => rfl
  | umask irq =>
      rw [VectorCall.exec, VectorCall.enables, umask_eq_onEnable,
        enabled_onEnable s (g := or) Lib.Bits.getLsbD_or_mask Bool.or_false]
      by_cases hv : irq = v
      · simp [hv]
      · simp [hv]
  | mask irq =>
      rw [VectorCall.exec, VectorCall.enables, mask_eq_onEnable,
        enabled_onEnable s (g := fun x b => x && !b) Lib.Bits.getLsbD_and_not_mask Bool.and_true]
      by_cases hv : irq = v
      · simp [hv]
      · simp [hv]

/-- Installing a vector changes its own entry only. -/
theorem assignsOwn_installs (s : Vectors H P) (call : VectorCall H P) :
    AssignsOwn VectorCall.exec Vectors.entry VectorCall.installs s call := by
  intro v
  cases call with
  | install vector handler param =>
      rw [install_exec]
      unfold Vectors.entry VectorCall.installs
      simp only [Vector.getElem_set]
      by_cases hv : vector = v
      · rw [if_pos hv, if_pos (congrArg Fin.val hv)]
        rfl
      · rw [if_neg hv, if_neg fun h => hv (Fin.ext h)]
        rfl
  | umask irq =>
      unfold Vectors.entry VectorCall.exec
      simp only [umask_eq_onEnable, (onEnable_frame _ s irq).1]
      rfl
  | mask irq =>
      unfold Vectors.entry VectorCall.exec
      simp only [mask_eq_onEnable, (onEnable_frame _ s irq).1]
      rfl

/-- Lines of the processor are unmasked by installing only, and never masked. -/
theorem unmasked_exec (s : Vectors H P) (call : VectorCall H P) (ip : Nat) :
    (call.exec s).unmasked ip = true ↔ s.unmasked ip = true ∨ call.unmasks = some ip := by
  cases call with
  | install vector handler param =>
      rw [install_exec, VectorCall.unmasks, Option.some.injEq]
      generalize (if vector.val ≤ 32 then 2 else 3) = line
      simp only
      by_cases hline : line = ip
      · rw [hline, Function.update_self]
        simp
      · rw [Function.update_of_ne (Ne.symm hline)]
        simp [hline]
  | umask irq =>
      rw [VectorCall.exec, umask_eq_onEnable, (onEnable_frame _ s irq).2]
      simp [VectorCall.unmasks]
  | mask irq =>
      rw [VectorCall.exec, mask_eq_onEnable, (onEnable_frame _ s irq).2]
      simp [VectorCall.unmasks]

/-! ### Runs -/

variable (default : IrqDesc H P) (calls : List (VectorCall H P))

/-- After a run an entry holds the last handler installed, or the default one. -/
theorem table_run (v : Fin MAX_INTR) :
    (calls.foldl VectorCall.exec (rtHwInterruptInit default)).entry v =
      (lastInstalled calls v).getD default := by
  have hlast := get_foldl_of_assignsOwn assignsOwn_installs (rtHwInterruptInit default) calls v
  have hinit : (rtHwInterruptInit default).entry v = default := by
    simp [Vectors.entry, rtHwInterruptInit]
  rw [hlast, lastSet, hinit]
  rfl

/-- After a run a vector is enabled as the last call for it says. -/
theorem enabled_run (v : Fin MAX_INTR) :
    (calls.foldl VectorCall.exec (rtHwInterruptInit default)).enabled v =
      (lastEnabled calls v).getD false := by
  have hlast := get_foldl_of_assignsOwn assignsOwn_enables (rtHwInterruptInit default) calls v
  have hinit : (rtHwInterruptInit default).enabled v = false := by
    unfold Vectors.enabled
    cases bankOf v with
    | liointc0 => exact BitVec.getLsbD_zero
    | liointc1 => exact BitVec.getLsbD_zero
  rw [hlast, lastSet, hinit]
  rfl

/-- A processor line is unmasked when some call has unmasked it. -/
theorem unmasked_run (s : Vectors H P) (ip : Nat) :
    (calls.foldl VectorCall.exec s).unmasked ip = true ↔
      s.unmasked ip = true ∨ ∃ call ∈ calls, call.unmasks = some ip := by
  induction calls generalizing s with
  | nil => simp
  | cons call calls ih =>
      rw [List.foldl_cons, ih, unmasked_exec, List.exists_mem_cons_iff, or_assoc]

/-! ## When vectors are delivered -/

/-- A vector with an entry has been installed. -/
theorem exists_install {v : Fin MAX_INTR} {desc : IrqDesc H P}
    (h : lastInstalled calls v = some desc) :
    ∃ call ∈ calls, call = .install v desc.handler desc.param := by
  rcases List.exists_of_findSome?_eq_some h with ⟨call, hcall, hinstalls⟩
  refine ⟨call, List.mem_reverse.mp hcall, ?_⟩
  cases call with
  | install vector handler param =>
      rw [VectorCall.installs] at hinstalls
      by_cases hv : vector = v
      · rw [if_pos hv, Option.some.injEq] at hinstalls
        rw [← hinstalls, hv]
      · rw [if_neg hv] at hinstalls
        exact absurd hinstalls.symm (Option.some_ne_none desc)
  | umask irq => exact absurd hinstalls.symm (Option.some_ne_none desc)
  | mask irq => exact absurd hinstalls.symm (Option.some_ne_none desc)

/-- The line of a controller is served by that controller. -/
theorem rtDoMipsCpuIrq_lineOf (v : Fin MAX_INTR) :
    rtDoMipsCpuIrq (lineOf v) = .liointc (bankOf v) := by
  unfold lineOf bankOf
  by_cases hbank : v.val < 32
  · rw [if_pos hbank, if_pos hbank]
    rfl
  · rw [if_neg hbank, if_neg hbank]
    rfl

/-- The bit and the base of the controller give the vector. -/
theorem bitOf_add_irqBase (v : Fin MAX_INTR) : bitOf v + (bankOf v).irqBase = v.val := by
  rcases bitOf_cases v with ⟨-, hbank, hbit⟩ | ⟨-, hbank, hbit⟩
  · rw [hbank, hbit]
    rfl
  · rw [hbank, hbit]
    rfl

/-- All but the line of the processor is as it should be for every vector. -/
theorem delivers_unmasked_iff {v : Fin MAX_INTR} {desc : IrqDesc H P}
    (hinstalled : lastInstalled calls v = some desc) (henabled : lastEnabled calls v = some true) :
    Delivers (calls.foldl VectorCall.exec (rtHwInterruptInit default)) v desc ↔
      ∃ call ∈ calls, call.unmasks = some (lineOf v) := by
  have hentry := table_run default calls v
  have henable := enabled_run default calls v
  rw [hinstalled] at hentry
  rw [henabled] at henable
  have hunmasked := unmasked_run calls (rtHwInterruptInit default) (lineOf v)
  have hinit : (rtHwInterruptInit default).unmasked (lineOf v) ≠ true := Bool.false_ne_true
  rw [or_iff_right hinit] at hunmasked
  rw [← hunmasked]
  constructor
  · exact fun h => h.unmasked
  · intro hline
    refine ⟨henable, rtDoMipsCpuIrq_lineOf v, hline, ?_⟩
    rw [bitOf_add_irqBase, Vector.getElem?_eq_getElem v.isLt]
    exact congrArg some hentry

/-- Vectors above 32 are installed on the line of the second bank. -/
theorem exists_unmasks_iff (ip : Nat) :
    (∃ call ∈ calls, call.unmasks = some ip) ↔
      ∃ vector handler param, .install vector handler param ∈ calls ∧
        (if vector.val ≤ 32 then 2 else 3) = ip := by
  constructor
  · rintro ⟨call, hcall, hunmasks⟩
    cases call with
    | install vector handler param =>
        exact ⟨vector, handler, param, hcall, Option.some.inj hunmasks⟩
    | umask irq => exact absurd hunmasks.symm (Option.some_ne_none ip)
    | mask irq => exact absurd hunmasks.symm (Option.some_ne_none ip)
  · rintro ⟨vector, handler, param, hcall, hline⟩
    exact ⟨_, hcall, congrArg some hline⟩

/-- The vector 32, line 0 of the second controller. -/
def vector32 : Fin MAX_INTR :=
  ⟨32, Nat.lt_of_sub_eq_succ rfl⟩

/-- Vector 32 is installed and was unmasked last, and no vector above it is installed. -/
def Stranded : Prop :=
  (∃ desc, lastInstalled calls vector32 = some desc) ∧
    lastEnabled calls vector32 = some true ∧
    ∀ vector handler param, .install vector handler param ∈ calls → vector.val ≤ 32

/-- Behind a history of calls every vector that is installed and unmasked can be
delivered, unless this holds of vector 32 but of no vector above it. -/
theorem deliverable_iff : Deliverable default calls ↔ ¬ Stranded calls := by
  constructor
  · rintro h ⟨⟨desc, hinstalled⟩, henabled, honly⟩
    have hdelivers := h vector32 desc hinstalled henabled
    rw [delivers_unmasked_iff default calls hinstalled henabled, exists_unmasks_iff] at hdelivers
    rcases hdelivers with ⟨vector, handler, param, hcall, hline⟩
    rw [if_pos (honly vector handler param hcall)] at hline
    exact absurd hline (by decide)
  · intro h v desc hinstalled henabled
    rw [delivers_unmasked_iff default calls hinstalled henabled, exists_unmasks_iff]
    rcases exists_install calls hinstalled with ⟨call, hcall, rfl⟩
    by_cases hv : v.val = 32
    · -- vector 32 relies on another vector of its bank
      have hv32 : v = vector32 := Fin.ext hv
      rw [hv32] at hinstalled henabled ⊢
      by_contra hnone
      refine h ⟨⟨desc, hinstalled⟩, henabled, ?_⟩
      intro vector handler param hcall'
      by_contra hgt
      exact hnone ⟨vector, handler, param, hcall', if_neg hgt⟩
    · refine ⟨v, _, _, hcall, ?_⟩
      unfold lineOf
      by_cases hbank : v.val < 32
      · rw [if_pos hbank, if_pos (Nat.le_of_lt hbank)]
      · rw [if_neg hbank, if_neg (by omega)]

end Delivery

/-- Vector 32 alone: its bit is enabled and its entry is in the table, but the second
bank's line of the processor stays masked. -/
theorem vector32_alone :
    ([VectorCall.install vector32 1 0, .umask vector32].foldl VectorCall.exec
        (rtHwInterruptInit ⟨0, 0⟩)).unmasked (lineOf vector32) = false ∧
      ¬ Deliverable (⟨0, 0⟩ : IrqDesc Nat Nat) [.install vector32 1 0, .umask vector32] := by
  have hline : ([VectorCall.install vector32 1 0, .umask vector32].foldl VectorCall.exec
      (rtHwInterruptInit (⟨0, 0⟩ : IrqDesc Nat Nat))).unmasked (lineOf vector32) = false := by
    decide
  refine ⟨hline, ?_⟩
  intro h
  have hdelivers := h vector32 ⟨1, 0⟩ rfl rfl
  exact absurd (hline.symm.trans hdelivers.unmasked) Bool.false_ne_true

end Interrupt
end Ls2kMorse
