import Ls2kMorse.Lib.Bits
import Ls2kMorse.Lib.Trace
import Mathlib.Data.Fin.Basic

/-!
# Directions and levels of the pins

The GPIO driver keeps one bit for each pin in three registers: the output enable,
low for an output, the output level and the input level.  The mask of a pin is a shift by
its low six bits.  The drivers of the two projects differ: the player's refuses to write
the pins from 60 on, and reads the reserved input register.

Main results:

- Theorem `assignsOwn_exec`: a call changes what it is about and nothing else.
- Theorem `get_run`: what every line does after any calls.
-/

namespace Ls2kMorse
namespace Gpio

open Lib Lib.Trace

/-! ## The driver -/

/-- The registers of `struct loongson_gpio` that the pin functions use. -/
structure Registers where
  oen : BitVec 64
  o : BitVec 64
  i0 : BitVec 64
  i1 : BitVec 64

/-- What the drivers of the two projects differ in: the pin from which on writes are
refused, if any, and the input register that is read. -/
structure Port where
  limit : Option Int
  readsReserved : Bool

/-- In the recorder's driver the test `pin >= 60` is commented out. -/
def recorderPort : Port where
  limit := none
  readsReserved := false

/-- The player's driver refuses writes to the pins from 60 on, and reads `GPIO1_I`. -/
def playerPort : Port where
  limit := some 60
  readsReserved := true

/-- The pin drives its level. -/
def PIN_MODE_OUTPUT : Int := 0

/-- The pin is read. -/
def PIN_MODE_INPUT : Int := 1

/-- The pin is read, with a pull-up. -/
def PIN_MODE_INPUT_PULLUP : Int := 2

/-- The pin is read, with a pull-down. -/
def PIN_MODE_INPUT_PULLDOWN : Int := 3

/-- The pin drives its level with an open drain. -/
def PIN_MODE_OUTPUT_OD : Int := 4

/-- The bit of a pin: the shift looks at the low six bits only. -/
def lineOfPin (pin : Int) : Fin 64 :=
  ⟨(pin % 64).toNat, by omega⟩

/-- `(rt_uint64_t)1 << pin`. -/
def pinMask (pin : Int) : BitVec 64 :=
  1#64 <<< (lineOfPin pin).val

/-- `loongson_pin_mode`: the pin is not checked, and an unknown mode changes nothing. -/
def loongsonPinMode (pin mode : Int) (s : Registers) : Registers :=
  let m := pinMask pin
  if mode = PIN_MODE_OUTPUT then { s with oen := s.oen &&& ~~~m }
  else if mode = PIN_MODE_INPUT then { s with oen := s.oen ||| m }
  else if mode = PIN_MODE_INPUT_PULLUP then { s with oen := s.oen ||| m }
  else if mode = PIN_MODE_INPUT_PULLDOWN then { s with oen := s.oen ||| m }
  else if mode = PIN_MODE_OUTPUT_OD then { s with oen := s.oen &&& ~~~m }
  else s

/-- The test in front of a write. -/
def Port.refuses (port : Port) (pin : Int) : Bool :=
  match port.limit with
  | none => pin < 0
  | some limit => pin < 0 ∨ pin ≥ limit

/-- `loongson_pin_write`. -/
def loongsonPinWrite (port : Port) (pin value : Int) (s : Registers) : Registers :=
  if port.refuses pin then s
  else
    let m := pinMask pin
    if value ≠ 0 then { s with o := s.o ||| m } else { s with o := s.o &&& ~~~m }

/-- `loongson_pin_read`. -/
def loongsonPinRead (port : Port) (pin : Int) (s : Registers) : Bool :=
  let m := if port.readsReserved then s.i1 else s.i0
  m &&& pinMask pin ≠ 0

/-! ## Calls -/

/-- A call of one of the two functions that store. -/
inductive PinOp where
  | mode (pin value : Int)
  | write (pin value : Int)
deriving Repr, DecidableEq

/-- The registers after one call. -/
def PinOp.exec (port : Port) (s : Registers) : PinOp → Registers
  | .mode pin value => loongsonPinMode pin value s
  | .write pin value => loongsonPinWrite port pin value s

/-- What a line does: whether it is driven, and the level it is given. -/
inductive PinField where
  | driven (pin : Fin 64)
  | level (pin : Fin 64)
deriving Repr, DecidableEq

/-- The bit of the registers that a field of a pin is kept in. -/
def Registers.get (s : Registers) : PinField → Bool
  | .driven pin => !s.oen.getLsbD pin.val
  | .level pin => s.o.getLsbD pin.val

/-- Whether a mode drives the pin; none for a mode that the driver does not know. -/
def drives (mode : Int) : Option Bool :=
  if mode = PIN_MODE_OUTPUT ∨ mode = PIN_MODE_OUTPUT_OD then some true
  else if mode = PIN_MODE_INPUT ∨ mode = PIN_MODE_INPUT_PULLUP ∨ mode = PIN_MODE_INPUT_PULLDOWN then
    some false
  else none

/-- What a call says about a line. -/
def PinOp.sets (port : Port) : PinOp → PinField → Option Bool
  | .mode pin value, .driven pin' => if lineOfPin pin = pin' then drives value else none
  | .write pin value, .level pin' =>
      if lineOfPin pin = pin' ∧ port.refuses pin = false then some (decide (value ≠ 0)) else none
  | _, _ => none

/-- Setting the bit of a pin leaves the others. -/
theorem getLsbD_set (x : BitVec 64) (pin pin' : Fin 64) :
    (x ||| 1#64 <<< pin.val).getLsbD pin'.val =
      if pin = pin' then true else x.getLsbD pin'.val := by
  rw [Bits.getLsbD_or_mask _ pin.isLt]
  by_cases h : pin = pin'
  · simp [h]
  · have hval : pin'.val ≠ pin.val := fun heq => h (Fin.ext heq.symm)
    simp [h, hval]

/-- Clearing the bit of a pin leaves the others. -/
theorem getLsbD_clear (x : BitVec 64) (pin pin' : Fin 64) :
    (x &&& ~~~(1#64 <<< pin.val)).getLsbD pin'.val =
      if pin = pin' then false else x.getLsbD pin'.val := by
  rw [Bits.getLsbD_and_not_mask _ pin.isLt]
  by_cases h : pin = pin'
  · simp [h]
  · have hval : pin'.val ≠ pin.val := fun heq => h (Fin.ext heq.symm)
    simp [h, hval]

/-- The driver sorts the modes into two kinds. -/
theorem loongsonPinMode_eq (pin mode : Int) (s : Registers) :
    loongsonPinMode pin mode s =
      match drives mode with
      | none => s
      | some true => { s with oen := s.oen &&& ~~~(1#64 <<< (lineOfPin pin).val) }
      | some false => { s with oen := s.oen ||| 1#64 <<< (lineOfPin pin).val } := by
  by_cases hknown : mode = 0 ∨ mode = 1 ∨ mode = 2 ∨ mode = 3 ∨ mode = 4
  · rcases hknown with rfl | rfl | rfl | rfl | rfl <;> rfl
  · simp only [not_or] at hknown
    simp [loongsonPinMode, drives, PIN_MODE_OUTPUT, PIN_MODE_INPUT, PIN_MODE_INPUT_PULLUP,
      PIN_MODE_INPUT_PULLDOWN, PIN_MODE_OUTPUT_OD, hknown]

/-- The line of a pin below 64. -/
theorem lineOfPin_val (pin : Fin 64) : lineOfPin pin.val = pin := by
  apply Fin.ext
  show ((pin.val : Int) % 64).toNat = pin.val
  omega

/-- A call changes what it is about and nothing else. -/
theorem assignsOwn_exec (port : Port) (s : Registers) (op : PinOp) :
    AssignsOwn (PinOp.exec port) Registers.get (PinOp.sets port) s op := by
  intro field
  cases op with
  | mode pin value =>
      rw [PinOp.exec, loongsonPinMode_eq]
      cases field with
      | driven pin' =>
          rw [PinOp.sets]
          rcases drives value with - | out | out
          · simp
          · simp only [Registers.get, getLsbD_set]
            split_ifs <;> rfl
          · simp only [Registers.get, getLsbD_clear]
            split_ifs <;> rfl
      | level pin' => rcases drives value with - | out | out <;> rfl
  | write pin value =>
      rw [PinOp.exec, loongsonPinWrite]
      cases hrefused : port.refuses pin with
      | true =>
          rw [if_pos rfl]
          cases field with
          | driven pin' => rfl
          | level pin' =>
              have hnone : ¬ (lineOfPin pin = pin' ∧ port.refuses pin = false) := by
                rw [hrefused]
                exact fun hboth => Bool.noConfusion hboth.2
              rw [PinOp.sets, if_neg hnone]
              rfl
      | false =>
          rw [if_neg Bool.false_ne_true]
          cases field with
          | driven pin' => split_ifs <;> rfl
          | level pin' =>
              have hiff : (lineOfPin pin = pin' ∧ port.refuses pin = false) ↔
                  lineOfPin pin = pin' := and_iff_left hrefused
              rw [PinOp.sets]
              unfold pinMask
              by_cases hvalue : value ≠ 0
              · rw [if_pos hvalue]
                simp only [Registers.get, getLsbD_set, hiff]
                split_ifs
                · exact (decide_eq_true hvalue).symm
                · rfl
              · rw [if_neg hvalue]
                simp only [Registers.get, getLsbD_clear, hiff]
                split_ifs
                · exact (decide_eq_false hvalue).symm
                · rfl

/-- A call leaves the input registers alone. -/
theorem loongsonPinRead_exec (port : Port) (pin : Int) (s : Registers) (op : PinOp) :
    loongsonPinRead port pin (op.exec port s) = loongsonPinRead port pin s := by
  have hinput : (op.exec port s).i0 = s.i0 ∧ (op.exec port s).i1 = s.i1 := by
    cases op with
    | mode pin' value =>
        rw [PinOp.exec, loongsonPinMode_eq]
        rcases drives value with - | out | out <;> exact ⟨rfl, rfl⟩
    | write pin' value =>
        rw [PinOp.exec, loongsonPinWrite]
        split_ifs <;> exact ⟨rfl, rfl⟩
  unfold loongsonPinRead
  rw [hinput.1, hinput.2]

/-- After any calls, with pins of any number, every line is driven as its last known mode
says and has the level that was last written to it; what has not been set is as it was, and
so is what is read. -/
theorem get_run (port : Port) (s : Registers) (ops : List PinOp) :
    (∀ field, (ops.foldl (PinOp.exec port) s).get field =
      lastSet (PinOp.sets port) s.get ops field) ∧
    ∀ pin, loongsonPinRead port pin (ops.foldl (PinOp.exec port) s) =
      loongsonPinRead port pin s := by
  refine ⟨fun field => get_foldl_of_assignsOwn (assignsOwn_exec port) s ops field, ?_⟩
  intro pin
  induction ops generalizing s with
  | nil => rfl
  | cons op ops ih => rw [List.foldl_cons, ih, loongsonPinRead_exec]

end Gpio
end Ls2kMorse
