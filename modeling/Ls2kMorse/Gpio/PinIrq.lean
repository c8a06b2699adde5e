import Mathlib.Algebra.Order.Ring.Nat
import Mathlib.Data.Fin.Basic
import Mathlib.Logic.Function.Basic
import Mathlib.Tactic.Common

/-!
# Pin interrupts

The GPIO driver keeps callbacks in a table of structures with 32 entries each.
Attaching, detaching and enabling choose the structure by the class of the pin and
the entry by the pin itself, which does not exist for pins from 32 on.  The
structures that `loongson_pin_init` installs for the two shared interrupt lines
are not the ones that are filled for their pins.

Main results:

- Theorem `run_entry`: the entry of a pin holds its last callback, argument and
  enable state.
- Theorem `run_unused`: the structure installed for the lower shared line stays
  empty.
- Theorem `delivers_iff`: for which histories and pins an interrupt reaches the
  right callback.
-/

namespace Ls2kMorse
namespace Gpio

/-! ## The table -/

/-- The vector that the pins 0 to 31 share. -/
def LS2K_GPIO_INTLO_IRQ : Nat := 58

/-- The vector that the pins 32 to 63 share. -/
def LS2K_GPIO_INTHI_IRQ : Nat := 59

/-- The vector of pin 0. -/
def LS2K_GPIO0_INT_IRQ : Nat := 60

/-- The vector of pin 1. -/
def LS2K_GPIO1_INT_IRQ : Nat := 61

/-- The vector of pin 2. -/
def LS2K_GPIO2_INT_IRQ : Nat := 62

/-- The vector of pin 3. -/
def LS2K_GPIO3_INT_IRQ : Nat := 63

variable {κ α : Type}

/-- `struct gpio_irq_def` for callbacks `κ` and arguments `α`; `none` is `RT_NULL`. -/
structure GpioIrqDef (κ α : Type) where
  irqArg : Fin 32 → Option α
  irqCb : Fin 32 → Option κ
  irqType : Fin 32 → UInt8
  state : Fin 32 → UInt8

/-- The structures as the loader leaves them. -/
def GpioIrqDef.zero : GpioIrqDef κ α where
  irqArg _ := none
  irqCb _ := none
  irqType _ := 0
  state _ := 0

/-- `_g_gpio_irq_tbl`, the register `GPIO0_INTEN` and the trigger modes that were
requested from the interrupt controller. -/
structure Driver (κ α : Type) where
  tbl : Fin 64 → GpioIrqDef κ α
  inten : BitVec 64
  modes : List (Fin 64 × UInt32)

/-- The driver before any call: the static table is zero, the enable bits are what the
chip has. -/
def Driver.boot (inten : BitVec 64) : Driver κ α where
  tbl _ := .zero
  inten := inten
  modes := []

/-- The structure that the three operations choose for a pin. -/
def index (pin : Fin 64) : Fin 64 :=
  if pin < 4 then pin
  else if pin < 32 then 5
  else 6

/-- An access to entry `pin` of one of the four arrays. -/
def entry (pin : Nat) : Option (Fin 32) :=
  if h : pin < 32 then some ⟨pin, h⟩ else none

/-- `loongson_pin_attach_irq`: fills the entry that the pin number selects. -/
def loongsonPinAttachIrq (pin : Fin 64) (mode : UInt32) (hdr : Option κ) (args : Option α)
    (s : Driver κ α) : Option (Driver κ α) := do
  let i ← entry pin
  let t := s.tbl (index pin)
  some
    { tbl := Function.update s.tbl (index pin)
        { t with
          irqCb := Function.update t.irqCb i hdr
          irqArg := Function.update t.irqArg i args
          irqType := Function.update t.irqType i mode.toUInt8 }
      inten := s.inten ||| 1#64 <<< pin.val
      modes := s.modes ++ [(index pin, mode)] }

/-- `loongson_pin_detach_irq`: clears the entry that the pin number selects. -/
def loongsonPinDetachIrq (pin : Fin 64) (s : Driver κ α) : Option (Driver κ α) := do
  let i ← entry pin
  let t := s.tbl (index pin)
  some
    { s with
      tbl := Function.update s.tbl (index pin)
        { irqCb := Function.update t.irqCb i none
          irqArg := Function.update t.irqArg i none
          irqType := Function.update t.irqType i 0
          state := Function.update t.state i 0 } }

/-- `loongson_pin_irq_enable`: sets or clears the enable bit of the pin. -/
def loongsonPinIrqEnable (pin : Fin 64) (enabled : UInt32) (s : Driver κ α) :
    Option (Driver κ α) := do
  let i ← entry pin
  let t := s.tbl (index pin)
  some
    { s with
      tbl := Function.update s.tbl (index pin)
        { t with state := Function.update t.state i (if enabled ≠ 0 then 1 else 0) } }

/-! ## The handler -/

/-- The pin of bit 0 of the mask. -/
def basePin (irq : Nat) : Nat :=
  if irq = LS2K_GPIO0_INT_IRQ then 0
  else if irq = LS2K_GPIO1_INT_IRQ then 1
  else if irq = LS2K_GPIO2_INT_IRQ then 2
  else if irq = LS2K_GPIO3_INT_IRQ then 3
  else if irq = LS2K_GPIO_INTLO_IRQ then 4
  else 32

/-- The body of the loop for a set bit: the callbacks it calls. -/
def callPin (irqDef : GpioIrqDef κ α) (pin : Nat) : Option (List (κ × Option α)) := do
  let i ← entry pin
  match irqDef.irqCb i with
  | none => some []
  | some cb => if irqDef.state i ≠ 0 then some [(cb, irqDef.irqArg i)] else some []

/-- The `while` loop: the callbacks it calls, in order. -/
def handlerLoop (irqDef : GpioIrqDef κ α) (pin value : Nat) : Option (List (κ × Option α)) :=
  if _h : value = 0 then some []
  else do
    let called ← if value % 2 = 1 then callPin irqDef pin else some []
    let later ← handlerLoop irqDef (pin + 1) (value / 2)
    some (called ++ later)
termination_by value
decreasing_by exact Nat.div_lt_self (Nat.pos_of_ne_zero _h) Nat.one_lt_two

/-- `gpio_irq_handler` with the value that its local variable `value` happens to
have. -/
def gpioIrqHandler (irq : Nat) (param : GpioIrqDef κ α) (value : Nat) :
    Option (List (κ × Option α)) :=
  handlerLoop param (basePin irq) value

/-- The lines for which `loongson_pin_init` installs the handler, with the
structure it passes. -/
def loongsonPinInit : List (Nat × Fin 64) :=
  [ (LS2K_GPIO0_INT_IRQ, 0), (LS2K_GPIO1_INT_IRQ, 1), (LS2K_GPIO2_INT_IRQ, 2),
    (LS2K_GPIO3_INT_IRQ, 3), (LS2K_GPIO_INTLO_IRQ, 4), (LS2K_GPIO_INTHI_IRQ, 5) ]

/-- The line that serves a pin. -/
def lineOf (pin : Fin 64) : Nat :=
  if pin < 4 then LS2K_GPIO0_INT_IRQ + pin
  else if pin < 32 then LS2K_GPIO_INTLO_IRQ
  else LS2K_GPIO_INTHI_IRQ

/-- The handler runs for the line of a pin, with the mask of this pin alone. -/
def interrupt (s : Driver κ α) (pin : Fin 64) : Option (List (κ × Option α)) := do
  let param ← loongsonPinInit.lookup (lineOf pin)
  gpioIrqHandler (lineOf pin) (s.tbl param) (2 ^ (pin.val - basePin (lineOf pin)))

/-! ## Histories -/

/-- A call of one of the three pin functions. -/
inductive Op (κ α : Type) where
  | attach (pin : Fin 64) (mode : UInt32) (hdr : Option κ) (args : Option α)
  | detach (pin : Fin 64)
  | enable (pin : Fin 64) (enabled : UInt32)

/-- The pin that a call names. -/
def Op.pin : Op κ α → Fin 64
  | .attach pin _ _ _ => pin
  | .detach pin => pin
  | .enable pin _ => pin

/-- The driver after one call, if the table is not left. -/
def exec (s : Driver κ α) : Op κ α → Option (Driver κ α)
  | .attach pin mode hdr args => loongsonPinAttachIrq pin mode hdr args s
  | .detach pin => loongsonPinDetachIrq pin s
  | .enable pin enabled => loongsonPinIrqEnable pin enabled s

/-- The driver after a list of calls, if the table is never left. -/
def run (s : Driver κ α) : List (Op κ α) → Option (Driver κ α)
  | [] => some s
  | op :: ops => (exec s op).bind fun s' => run s' ops

/-- What a user of the driver knows about a pin. -/
structure Subscription (κ α : Type) where
  callback : Option κ
  arg : Option α
  enabled : Bool

/-- Nobody has attached a handler. -/
def Subscription.none : Subscription κ α where
  callback := .none
  arg := .none
  enabled := false

/-- The effect of a call on the subscription of a pin; detaching disables it. -/
def Subscription.update (pin : Fin 64) (u : Subscription κ α) : Op κ α → Subscription κ α
  | .attach pin' _ hdr args => if pin' = pin then { u with callback := hdr, arg := args } else u
  | .detach pin' => if pin' = pin then .none else u
  | .enable pin' enabled => if pin' = pin then { u with enabled := decide (enabled ≠ 0) } else u

/-- The subscription of a pin after some calls. -/
def subscription (pin : Fin 64) (ops : List (Op κ α)) : Subscription κ α :=
  ops.foldl (Subscription.update pin) .none

/-- The calls that an interrupt of a pin should make. -/
def Subscription.calls (u : Subscription κ α) : List (κ × Option α) :=
  match u.callback with
  | .none => []
  | some cb => if u.enabled then [(cb, u.arg)] else []

/-- No call of the history leaves the tables, and afterwards an interrupt of the
pin makes the calls it should make, without leaving the tables either. -/
def Delivers (inten : BitVec 64) (ops : List (Op κ α)) (pin : Fin 64) : Prop :=
  ∃ s, run (.boot inten) ops = some s ∧ interrupt s pin = some (subscription pin ops).calls

/-! ## What the calls leave in the table -/

/-- The subscription that an entry holds. -/
def GpioIrqDef.subscription (t : GpioIrqDef κ α) (i : Fin 32) : Subscription κ α where
  callback := t.irqCb i
  arg := t.irqArg i
  enabled := decide (t.state i ≠ 0)

/-- A pin inside the table selects its own entry. -/
theorem entry_eq_some {pin : Nat} {i : Fin 32} (h : entry pin = some i) : i.val = pin := by
  unfold entry at h
  split_ifs at h
  rw [← Option.some.inj h]

/-- Every entry is the one of its pin. -/
theorem entry_of_val (i : Fin 32) : entry i.val = some i := by
  simp [entry]

/-- A pin from 32 on is outside the table. -/
theorem entry_eq_none {pin : Nat} (h : ¬ pin < 32) : entry pin = none := by
  simp [entry, h]

/-- A call for another pin leaves a subscription as it is. -/
theorem Subscription.update_of_ne {pin : Fin 64} (op : Op κ α) (h : op.pin ≠ pin)
    (u : Subscription κ α) : u.update pin op = u := by
  cases op with
  | attach pin' mode hdr args => exact if_neg h
  | detach pin' => exact if_neg h
  | enable pin' enabled => exact if_neg h

/-- A call writes the structure of its pin: it updates the entry of the pin like the
subscription, and keeps the other entries. -/
theorem exec_cases {s s' : Driver κ α} {op : Op κ α} (h : exec s op = some s') :
    ∃ (i : Fin 32) (t : GpioIrqDef κ α), i.val = op.pin.val ∧
      s'.tbl = Function.update s.tbl (index op.pin) t ∧
      t.subscription i = ((s.tbl (index op.pin)).subscription i).update op.pin op ∧
      ∀ j, j ≠ i → t.subscription j = (s.tbl (index op.pin)).subscription j := by
  cases op with
  | attach pin mode hdr args =>
      simp only [exec, loongsonPinAttachIrq, Option.bind_eq_bind, Option.bind_eq_some_iff,
        Option.some.injEq] at h
      rcases h with ⟨i, hentry, rfl⟩
      refine ⟨i, _, entry_eq_some hentry, rfl, ?_, ?_⟩
      · show _ = ((s.tbl (index pin)).subscription i).update pin _
        simp [GpioIrqDef.subscription, Subscription.update]
      · intro j hj
        show GpioIrqDef.subscription _ j = (s.tbl (index pin)).subscription j
        simp [GpioIrqDef.subscription, Function.update_of_ne hj]
  | detach pin =>
      simp only [exec, loongsonPinDetachIrq, Option.bind_eq_bind, Option.bind_eq_some_iff,
        Option.some.injEq] at h
      rcases h with ⟨i, hentry, rfl⟩
      refine ⟨i, _, entry_eq_some hentry, rfl, ?_, ?_⟩
      · simp [GpioIrqDef.subscription, Subscription.update, Subscription.none, Op.pin]
      · intro j hj
        show GpioIrqDef.subscription _ j = (s.tbl (index pin)).subscription j
        simp [GpioIrqDef.subscription, Function.update_of_ne hj]
  | enable pin enabled =>
      simp only [exec, loongsonPinIrqEnable, Option.bind_eq_bind, Option.bind_eq_some_iff,
        Option.some.injEq] at h
      rcases h with ⟨i, hentry, rfl⟩
      refine ⟨i, _, entry_eq_some hentry, rfl, ?_, ?_⟩
      · by_cases henabled : enabled = 0 <;>
          simp [henabled, GpioIrqDef.subscription, Subscription.update, Op.pin]
      · intro j hj
        show GpioIrqDef.subscription _ j = (s.tbl (index pin)).subscription j
        simp [GpioIrqDef.subscription, Function.update_of_ne hj]

/-- Each call updates the entry of every pin like its subscription. -/
theorem exec_entry {s s' : Driver κ α} {op : Op κ α} (h : exec s op = some s') {pin : Fin 64}
    {i : Fin 32} (hi : i.val = pin.val) :
    (s'.tbl (index pin)).subscription i =
      ((s.tbl (index pin)).subscription i).update pin op := by
  rcases exec_cases h with ⟨i', t, hi', htbl, hentry, hother⟩
  rw [htbl]
  by_cases hpin : op.pin = pin
  · subst hpin
    have hsame : i = i' := Fin.ext (hi.trans hi'.symm)
    rw [Function.update_self, hsame]
    exact hentry
  · rw [Subscription.update_of_ne op hpin]
    by_cases hindex : index pin = index op.pin
    · have hne : i ≠ i' := by
        rintro rfl
        exact hpin (Fin.ext (hi'.symm.trans hi))
      rw [hindex, Function.update_self]
      exact hother i hne
    · rw [Function.update_of_ne hindex]

/-- No call writes to a structure that is the choice for no pin. -/
theorem exec_unused {s s' : Driver κ α} {op : Op κ α} (h : exec s op = some s') {k : Fin 64}
    (hk : ∀ pin, index pin ≠ k) : s'.tbl k = s.tbl k := by
  rcases exec_cases h with ⟨i, t, -, htbl, -, -⟩
  rw [htbl]
  exact Function.update_of_ne (hk op.pin).symm _ _

/-- A call stays inside the table exactly for pins below 32. -/
theorem exec_isSome_iff (s : Driver κ α) (op : Op κ α) :
    (exec s op).isSome ↔ op.pin.val < 32 := by
  have hentry : (entry op.pin.val).isSome ↔ op.pin.val < 32 := by
    unfold entry
    by_cases hlt : op.pin.val < 32 <;> simp [hlt]
  rw [← hentry]
  cases op with
  | attach pin' mode hdr args =>
      show (loongsonPinAttachIrq pin' mode hdr args s).isSome ↔ (entry pin'.val).isSome
      unfold loongsonPinAttachIrq
      cases hpin : entry pin'.val <;> simp
  | detach pin' =>
      show (loongsonPinDetachIrq pin' s).isSome ↔ (entry pin'.val).isSome
      unfold loongsonPinDetachIrq
      cases hpin : entry pin'.val <;> simp
  | enable pin' enabled =>
      show (loongsonPinIrqEnable pin' enabled s).isSome ↔ (entry pin'.val).isSome
      unfold loongsonPinIrqEnable
      cases hpin : entry pin'.val <;> simp

/-! ## Whole histories -/

/-- After any calls the entry of a pin holds its subscription. -/
theorem run_entry {s s' : Driver κ α} {ops : List (Op κ α)} (h : run s ops = some s')
    {pin : Fin 64} {i : Fin 32} (hi : i.val = pin.val) :
    (s'.tbl (index pin)).subscription i =
      ops.foldl (Subscription.update pin) ((s.tbl (index pin)).subscription i) := by
  induction ops generalizing s with
  | nil =>
      rw [← Option.some.inj h]
      rfl
  | cons op ops ih =>
      rcases Option.bind_eq_some_iff.mp h with ⟨s₁, hexec, hrun⟩
      rw [List.foldl_cons, ← exec_entry hexec hi]
      exact ih hrun

/-- An entry that no pin selects is never written. -/
theorem run_unused {s s' : Driver κ α} {ops : List (Op κ α)} (h : run s ops = some s')
    {k : Fin 64} (hk : ∀ pin, index pin ≠ k) : s'.tbl k = s.tbl k := by
  induction ops generalizing s with
  | nil => rw [← Option.some.inj h]
  | cons op ops ih =>
      rcases Option.bind_eq_some_iff.mp h with ⟨s₁, hexec, hrun⟩
      rw [ih hrun, exec_unused hexec hk]

/-- A run stays inside the table exactly when every pin is below 32. -/
theorem run_isSome_iff (s : Driver κ α) (ops : List (Op κ α)) :
    (run s ops).isSome ↔ ∀ op ∈ ops, op.pin.val < 32 := by
  induction ops generalizing s with
  | nil => exact iff_of_true rfl fun op hop => absurd hop List.not_mem_nil
  | cons op ops ih =>
      rw [List.forall_mem_cons, ← exec_isSome_iff s op, run]
      cases exec s op with
      | none => simp
      | some s' => simpa using ih s'

/-! ## The interrupt of one pin -/

/-- With a single bit set, the loop reaches one pin. -/
theorem handlerLoop_single (irqDef : GpioIrqDef κ α) (pin b : Nat) :
    handlerLoop irqDef pin (2 ^ b) = callPin irqDef (pin + b) := by
  induction b generalizing pin with
  | zero =>
      rw [handlerLoop, handlerLoop]
      cases callPin irqDef pin <;> simp_all
  | succ b ih =>
      have hpos : 2 ^ (b + 1) ≠ 0 := Nat.ne_of_gt (Nat.two_pow_pos (b + 1))
      have heven : ¬ 2 ^ (b + 1) % 2 = 1 := by omega
      have hhalf : 2 ^ (b + 1) / 2 = 2 ^ b := by omega
      rw [handlerLoop, dif_neg hpos, if_neg heven, hhalf, ih, Nat.add_right_comm]
      cases callPin irqDef (pin + b + 1) <;> rfl

/-- The handler calls what the entry has subscribed. -/
theorem callPin_eq (irqDef : GpioIrqDef κ α) (i : Fin 32) :
    callPin irqDef i.val = some (irqDef.subscription i).calls := by
  unfold callPin Subscription.calls GpioIrqDef.subscription
  rw [entry_of_val, Option.bind_eq_bind, Option.bind_some]
  cases irqDef.irqCb i with
  | none => rfl
  | some cb => by_cases hstate : irqDef.state i = 0 <;> simp [hstate]

/-- The structure and the first pin of the line of each class of pins. -/
theorem installed_own : ∀ pin : Fin 64, pin < 4 →
    loongsonPinInit.lookup (lineOf pin) = some (index pin) ∧ basePin (lineOf pin) = pin.val := by
  decide

/-- The pins 4 to 31 have the structure 4, and their handler counts from 4. -/
theorem installed_low : ∀ pin : Fin 64, 4 ≤ pin → pin < 32 →
    loongsonPinInit.lookup (lineOf pin) = some 4 ∧ basePin (lineOf pin) = 4 := by
  decide

/-- The pins from 32 on have the structure 5, and their handler counts from 32. -/
theorem installed_high : ∀ pin : Fin 64, 32 ≤ pin →
    loongsonPinInit.lookup (lineOf pin) = some 5 ∧ basePin (lineOf pin) = 32 := by
  decide

/-- The handler looks at the entry of the pin in the structure of its line. -/
theorem interrupt_eq (s : Driver κ α) {pin k : Fin 64} {base : Nat} (hbase : base ≤ pin.val)
    (h : loongsonPinInit.lookup (lineOf pin) = some k ∧ basePin (lineOf pin) = base) :
    interrupt s pin = callPin (s.tbl k) pin.val := by
  have hadd : base + (pin.val - base) = pin.val := by omega
  unfold interrupt gpioIrqHandler
  rw [h.1, h.2]
  simp only [Option.bind_eq_bind, Option.bind_some]
  rw [handlerLoop_single, hadd]

/-- A pin interrupt reaches its own callback, with no access outside the tables,
if and only if all calls were for pins below 32, and so is the pin, and it is one of
the first four or should not call anything. -/
theorem delivers_iff (inten : BitVec 64) (ops : List (Op κ α)) (pin : Fin 64) :
    Delivers inten ops pin ↔
      (∀ op ∈ ops, op.pin.val < 32) ∧ pin.val < 32 ∧
        (pin.val < 4 ∨ (subscription pin ops).calls = []) := by
  unfold Delivers
  rw [← run_isSome_iff (.boot inten) ops]
  cases hrun : run (.boot inten) ops with
  | none => simp
  | some s =>
      simp only [Option.some.injEq, exists_eq_left', Option.isSome_some, true_and]
      by_cases hlow : pin.val < 32
      · rw [and_iff_right hlow]
        have hi : (⟨pin.val, hlow⟩ : Fin 32).val = pin.val := rfl
        have hcall := fun t : GpioIrqDef κ α => callPin_eq t ⟨pin.val, hlow⟩
        by_cases hown : pin.val < 4
        · have hentry := run_entry hrun hi
          rw [interrupt_eq s (Nat.le_refl _) (installed_own pin hown)]
          exact iff_of_true ((hcall _).trans (congrArg (fun u => some u.calls) hentry))
            (Or.inl hown)
        · -- the structure of the shared line has never been written
          have hunused := run_unused hrun (k := 4) (by decide)
          have hge : 4 ≤ pin := Nat.le_of_not_lt hown
          rw [interrupt_eq s hge (installed_low pin hge hlow), hunused, or_iff_right hown]
          exact (Eq.congr_left (hcall _)).trans (Option.some_inj.trans eq_comm)
      · have hge : 32 ≤ pin := Nat.le_of_not_lt hlow
        have hnone : callPin (s.tbl 5) pin.val = none := by
          unfold callPin
          rw [entry_eq_none hlow]
          rfl
        rw [interrupt_eq s hge (installed_high pin hge), hnone]
        simp [hlow]

/-- Pin 5 is attached and enabled, and its interrupt calls nothing. -/
theorem delivers_pin_5 :
    ∃ s, run (.boot 0#64) [Op.attach 5 0 (some ()) (some ()), Op.enable 5 1] = some s ∧
      interrupt s 5 = some [] ∧
      (subscription 5 [Op.attach 5 0 (some ()) (some ()), Op.enable 5 1]).calls =
        [((), some ())] ∧
      ¬ Delivers 0#64 [Op.attach 5 0 (some ()) (some ()), Op.enable 5 1] 5 := by
  refine ⟨_, rfl, ?_⟩
  have hsilent : ∀ s : Driver Unit Unit, interrupt s 5 = callPin (s.tbl 4) 5 := by
    intro s
    exact interrupt_eq s (by decide) (installed_low 5 (by decide) (by decide))
  rw [hsilent]
  refine ⟨rfl, rfl, ?_⟩
  rintro ⟨s, hrun, hcalls⟩
  rw [hsilent, ← Option.some.inj hrun] at hcalls
  exact absurd hcalls (by decide)

end Gpio
end Ls2kMorse
