import Ls2kMorse.Lib.Bits
import Mathlib.Logic.Function.Iterate

/-!
# Interrupt dispatch

`liointc_isr` reads a status word, calls the handlers of its set bits and writes
the word to the enable register.  The loop clears bits in the copy `tmp` but
searches the lowest set bit in the word itself, so it calls the same handler
again as long as another bit of `tmp` is set.

The bit search `__rt_ffs` belongs to the kernel outside the repository and is a
parameter with its documented behaviour.

Main results:

- Theorem `isrStep_of_other_bit`: while another bit is set, an iteration leaves
  it set.
- Theorem `exactDispatch_iff`: the dispatch terminates and calls each pending
  handler once if and only if at most one bit is set.
-/

namespace Ls2kMorse
namespace Interrupt

open Lib.Bits

/-! ## The dispatch loop as the source computes it -/

/-- The length of the handler table. -/
def MAX_INTR : Nat := 64

/-- The vector of line 0 of the first controller. -/
def LIOINTC0_IRQBASE : Nat := 0

/-- The vector of line 0 of the second controller. -/
def LIOINTC1_IRQBASE : Nat := 32

/-- The handler and the parameter installed for a vector. -/
structure IrqDesc (H P : Type) where
  handler : H
  param : P
deriving Repr, DecidableEq

/-- The two controller banks. -/
inductive Bank where
  | liointc0
  | liointc1
deriving Repr, DecidableEq

/-- The vector of bit 0 of a bank. -/
def Bank.irqBase : Bank → Nat
  | .liointc0 => LIOINTC0_IRQBASE
  | .liointc1 => LIOINTC1_IRQBASE

theorem Bank.irqBase_le (bank : Bank) : bank.irqBase ≤ 32 := by
  cases bank with
  | liointc0 => exact Nat.zero_le 32
  | liointc1 => exact Nat.le_refl 32

/-- A call of a handler. -/
structure Call (H P : Type) where
  handler : H
  irq : Nat
  param : P
deriving Repr, DecidableEq

/-- Where `liointc_isr` stands: at its loop, returned, or at an access outside
the table. -/
inductive Pc where
  | loop
  | returned
  | fault
deriving Repr, DecidableEq

/-- The copy `tmp`, the calls made so far and the value written to the enable
register. -/
structure Isr (H P : Type) where
  pc : Pc
  tmp : BitVec 32
  calls : List (Call H P)
  enable : Option (BitVec 32)
deriving Repr, DecidableEq

section Dispatch

variable {H P : Type} (ffs : BitVec 32 → Nat) (table : Vector (IrqDesc H P) MAX_INTR)
  (bank : Bank) (isr : BitVec 32)

/-- One test of `while (tmp)` with the iteration or the return behind it. -/
def isrStep (s : Isr H P) : Isr H P :=
  match s.pc with
  | .loop =>
      if s.tmp ≠ 0#32 then
        match ffs isr with
        | 0 => { s with pc := .fault }
        | intx + 1 =>
            let irq := intx + bank.irqBase
            match table[irq]? with
            | none => { s with pc := .fault }
            | some desc =>
                { s with
                  tmp := s.tmp &&& ~~~(1#32 <<< intx)
                  calls := s.calls ++ [⟨desc.handler, irq, desc.param⟩] }
      else { s with pc := .returned, enable := some isr }
  | .returned => s
  | .fault => s

/-- State before the loop. -/
def isrInit : Isr H P where
  pc := .loop
  tmp := isr
  calls := []
  enable := none

/-- `liointc_isr` after `n` loop tests. -/
def liointcIsr (n : Nat) : Isr H P :=
  (isrStep ffs table bank isr)^[n] (isrInit isr)

/-- The calls that the status word asks for: the installed handler of each
pending vector with its own parameter, in ascending bit order. -/
def pendingCalls : List (Call H P) :=
  (setBits isr).filterMap fun b =>
    table[b + bank.irqBase]?.map fun desc => ⟨desc.handler, b + bank.irqBase, desc.param⟩

/-- The loop runs once for each set bit and then returns, having made exactly
the pending calls and written the status word to the enable register. -/
structure ExactDispatch : Prop where
  loops : ∀ n ≤ (setBits isr).length, (liointcIsr ffs table bank isr n).pc = .loop
  returns : (liointcIsr ffs table bank isr ((setBits isr).length + 1)).pc = .returned
  calls : (liointcIsr ffs table bank isr ((setBits isr).length + 1)).calls =
    pendingCalls table bank isr
  enable : (liointcIsr ffs table bank isr ((setBits isr).length + 1)).enable = some isr

end Dispatch

/-- The documented result of `__rt_ffs`: zero for zero, otherwise one more than
the position of the lowest set bit. -/
structure FindsFirstSet (ffs : BitVec 32 → Nat) : Prop where
  zero : ffs 0#32 = 0
  lowest : ∀ x, x ≠ 0#32 → ∃ b, ffs x = b + 1 ∧ x.getLsbD b = true ∧
    ∀ b' < b, x.getLsbD b' = false

/-- The bit search by its definition. -/
def lowestBit (x : BitVec 32) : Nat :=
  match (List.range 32).find? fun b => x.getLsbD b with
  | none => 0
  | some b => b + 1

/-! ## One iteration -/

section Steps

variable {H P : Type} {ffs : BitVec 32 → Nat} {table : Vector (IrqDesc H P) MAX_INTR}
  {bank : Bank} {isr : BitVec 32}

/-- An entry of the table for every bit of a bank. -/
theorem getElem?_table (table : Vector (IrqDesc H P) MAX_INTR) (bank : Bank) {b : Nat}
    (hb : b < 32) : ∃ desc, table[b + bank.irqBase]? = some desc := by
  have hbase := bank.irqBase_le
  have hlt : b + bank.irqBase < MAX_INTR := by
    unfold MAX_INTR
    omega
  exact ⟨table[b + bank.irqBase], Vector.getElem?_eq_getElem hlt⟩

/-- An iteration calls the handler of the lowest bit of the status word and
clears that bit in `tmp`. -/
theorem isrStep_loop {s : Isr H P} (hpc : s.pc = .loop) (htmp : s.tmp ≠ 0#32) {b : Nat}
    (hffs : ffs isr = b + 1) {desc : IrqDesc H P}
    (hdesc : table[b + bank.irqBase]? = some desc) :
    isrStep ffs table bank isr s =
      { s with
        tmp := s.tmp &&& ~~~(1#32 <<< b)
        calls := s.calls ++ [⟨desc.handler, b + bank.irqBase, desc.param⟩] } := by
  simp [isrStep, hpc, htmp, hffs, hdesc]

/-- Without bits left in `tmp` the loop returns. -/
theorem isrStep_return {s : Isr H P} (hpc : s.pc = .loop) (htmp : s.tmp = 0#32) :
    isrStep ffs table bank isr s = { s with pc := .returned, enable := some isr } := by
  simp [isrStep, hpc, htmp]

/-- The loop is entered again as long as `tmp` has a bit that the search in the
status word does not find. -/
theorem isrStep_of_other_bit {b b' : Nat} (hb : ffs isr = b + 1)
    (hlt : b < 32) (hne : b' ≠ b) {s : Isr H P} (hpc : s.pc = .loop)
    (hbit : s.tmp.getLsbD b' = true) :
    (isrStep ffs table bank isr s).pc = .loop ∧
      (isrStep ffs table bank isr s).tmp.getLsbD b' = true := by
  have htmp : s.tmp ≠ 0#32 := by
    intro h
    rw [h, BitVec.getLsbD_zero] at hbit
    exact Bool.noConfusion hbit
  rcases getElem?_table table bank hlt with ⟨desc, hdesc⟩
  rw [isrStep_loop hpc htmp hb hdesc]
  refine ⟨hpc, ?_⟩
  simp only
  rw [getLsbD_and_not_mask _ hlt, hbit]
  simp [hne]

variable (table bank) in
/-- With a second pending bit the loop never returns. -/
theorem loop_of_other_bit {b b' : Nat} (hb : ffs isr = b + 1)
    (hlt : b < 32) (hne : b' ≠ b) (hbit : isr.getLsbD b' = true) (n : Nat) :
    (liointcIsr ffs table bank isr n).pc = .loop := by
  have hrun : (liointcIsr ffs table bank isr n).pc = .loop ∧
      (liointcIsr ffs table bank isr n).tmp.getLsbD b' = true :=
    Function.Iterate.rec (fun s : Isr H P => s.pc = .loop ∧ s.tmp.getLsbD b' = true)
      ⟨rfl, hbit⟩ (fun _ h => isrStep_of_other_bit hb hlt hne h.1 h.2) n
  exact hrun.1

end Steps

/-! ## Exact dispatch -/

section Exactness

variable {H P : Type} {ffs : BitVec 32 → Nat}

/-- Without a pending line no handler is called. -/
theorem exactDispatch_zero (table : Vector (IrqDesc H P) MAX_INTR) (bank : Bank) :
    ExactDispatch ffs table bank 0#32 := by
  have hbits : setBits 0#32 = [] := setBits_eq_nil_iff.mpr rfl
  have hone : liointcIsr ffs table bank 0#32 1 =
      { pc := .returned, tmp := 0#32, calls := [], enable := some 0#32 } := by
    change isrStep ffs table bank 0#32 (isrInit 0#32) = _
    exact isrStep_return rfl rfl
  refine ⟨?_, ?_, ?_, ?_⟩
  · intro n hn
    rw [hbits, List.length_nil, Nat.le_zero] at hn
    rw [hn]
    rfl
  · rw [hbits, List.length_nil, Nat.zero_add, hone]
  · rw [hbits, List.length_nil, Nat.zero_add, hone, pendingCalls, hbits]
    rfl
  · rw [hbits, List.length_nil, Nat.zero_add, hone]

/-- A single pending bit is dispatched exactly. -/
theorem exactDispatch_single (hffs : FindsFirstSet ffs)
    (table : Vector (IrqDesc H P) MAX_INTR) (bank : Bank) {isr : BitVec 32}
    (hne : isr ≠ 0#32) (hcount : (setBits isr).length ≤ 1) :
    ExactDispatch ffs table bank isr := by
  rcases hffs.lowest isr hne with ⟨b, hb, hbit, -⟩
  have hlt : b < 32 := BitVec.lt_of_getLsbD hbit
  have hbits := setBits_eq_singleton hbit hcount
  rcases getElem?_table table bank hlt with ⟨desc, hdesc⟩
  have hclear : isr &&& ~~~(1#32 <<< b) = 0#32 := by
    apply BitVec.eq_of_getLsbD_eq
    intro i _
    rw [getLsbD_and_not_mask _ hlt, BitVec.getLsbD_zero]
    by_cases hi : isr.getLsbD i = true
    · have hmem : i ∈ setBits isr := mem_setBits.mpr hi
      rw [hbits, List.mem_singleton] at hmem
      simp [hmem]
    · simp [hi]
  have hone : liointcIsr ffs table bank isr 1 =
      { pc := .loop
        tmp := isr &&& ~~~(1#32 <<< b)
        calls := [⟨desc.handler, b + bank.irqBase, desc.param⟩]
        enable := none } :=
    isrStep_loop (s := isrInit isr) rfl hne hb hdesc
  have htwo : liointcIsr ffs table bank isr 2 =
      { pc := .returned
        tmp := isr &&& ~~~(1#32 <<< b)
        calls := [⟨desc.handler, b + bank.irqBase, desc.param⟩]
        enable := some isr } := by
    have hsucc : liointcIsr ffs table bank isr 2 =
        isrStep ffs table bank isr (liointcIsr ffs table bank isr 1) := rfl
    rw [hsucc, hone]
    exact isrStep_return rfl hclear
  refine ⟨?_, ?_, ?_, ?_⟩
  · intro n hn
    rw [hbits, List.length_singleton] at hn
    rcases Nat.le_one_iff_eq_zero_or_eq_one.mp hn with rfl | rfl
    · rfl
    · rw [hone]
  · rw [hbits, List.length_singleton, htwo]
  · rw [hbits, List.length_singleton, htwo, pendingCalls, hbits]
    simp [hdesc]
  · rw [hbits, List.length_singleton, htwo]

/-- The dispatch loop terminates after one iteration for each set bit, calls the
installed handler of each pending vector exactly once, in ascending order, and
enables exactly the status word, if and only if at most one bit is set. -/
theorem exactDispatch_iff (hffs : FindsFirstSet ffs)
    (table : Vector (IrqDesc H P) MAX_INTR) (bank : Bank) (isr : BitVec 32) :
    ExactDispatch ffs table bank isr ↔ (setBits isr).length ≤ 1 := by
  constructor
  · intro hexact
    by_contra hcount
    have htwo : 2 ≤ (setBits isr).length := by omega
    have hne : isr ≠ 0#32 := by
      rintro rfl
      rw [setBits_eq_nil_iff.mpr rfl] at htwo
      exact absurd htwo (by decide)
    rcases hffs.lowest isr hne with ⟨b, hb, hbit, -⟩
    rcases exists_ne_of_two_le b htwo with ⟨b', hbit', hne'⟩
    have hloop := loop_of_other_bit table bank hb (BitVec.lt_of_getLsbD hbit) hne' hbit'
      ((setBits isr).length + 1)
    rw [hexact.returns] at hloop
    exact Pc.noConfusion hloop
  · intro hcount
    by_cases hne : isr = 0#32
    · rw [hne]
      exact exactDispatch_zero table bank
    · exact exactDispatch_single hffs table bank hne hcount

end Exactness

/-- The bit search by its definition behaves as documented. -/
theorem lowestBit_findsFirstSet : FindsFirstSet lowestBit where
  zero := by decide
  lowest := by
    intro x hx
    unfold lowestBit
    cases hfind : (List.range 32).find? fun b => x.getLsbD b with
    | none =>
        exfalso
        apply hx
        rw [← setBits_eq_nil_iff]
        simpa [setBits] using hfind
    | some b =>
        rcases List.find?_eq_some_iff_append.mp hfind with ⟨hbit, as, bs, hsplit, hbefore⟩
        refine ⟨b, rfl, hbit, ?_⟩
        intro b' hb'
        have hlen : as.length = b := by
          have hget : (List.range 32)[as.length]? = some b := by
            rw [hsplit]
            simp
          rcases List.getElem?_eq_some_iff.mp hget with ⟨hlt, hval⟩
          rwa [List.getElem_range] at hval
        have hmem : b' ∈ as := by
          have hget : (as ++ b :: bs)[b']? = some b' := by
            have hlt : b' < 32 := Nat.lt_trans hb' (BitVec.lt_of_getLsbD hbit)
            rw [← hsplit, List.getElem?_range hlt]
          rw [List.getElem?_append_left (by omega)] at hget
          exact List.mem_of_getElem? hget
        simpa using hbefore b' hmem

/-- Vector 5 alone is pending. -/
theorem exactDispatch_bit_5 :
    ExactDispatch lowestBit (Vector.replicate MAX_INTR (⟨0, 0⟩ : IrqDesc Nat Nat)) .liointc0
        32#32 ↔ (setBits 32#32).length ≤ 1 :=
  exactDispatch_iff lowestBit_findsFirstSet _ _ _

/-- Vectors 0 and 1 are pending: the loop calls the handler of vector 0 in every
iteration and does not return. -/
theorem exactDispatch_bits_0_1 :
    (liointcIsr lowestBit (Vector.replicate MAX_INTR (⟨0, 0⟩ : IrqDesc Nat Nat)) .liointc0
        3#32 3).calls = [⟨0, 0, 0⟩, ⟨0, 0, 0⟩, ⟨0, 0, 0⟩] ∧
      ¬ ExactDispatch lowestBit (Vector.replicate MAX_INTR (⟨0, 0⟩ : IrqDesc Nat Nat))
        .liointc0 3#32 := by
  constructor
  · decide
  · intro hexact
    exact absurd hexact.returns (by decide)

end Interrupt
end Ls2kMorse
