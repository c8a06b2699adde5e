import Ls2kMorse.Lib.Bits
import Ls2kMorse.Lib.Simulation
import Mathlib.Data.Fin.Basic

/-!
# The PWM driver

The driver reaches four timers through one `control` function.  A timer has the
registers of its period and its pulse and an enable bit; a bit of the pin configuration
connects it to its pin, and is never cleared.

Main results:

- Theorem `simulates_ioctl`: the driver on registers behaves as four timers.
- Theorem `channel_ioctl_run`: after any requests a timer is what its own requests
  make of it.
-/

namespace Ls2kMorse
namespace Pwm

open Lib Lib.Simulation

/-! ## The driver -/

/-- The bit of the control register that enables the output. -/
def CTRL_EN : BitVec 32 := 1#32

/-- `struct loongson_pwm`. -/
structure Chip where
  lowBuffer : BitVec 32
  fullBuffer : BitVec 32
  ctrl : BitVec 32

/-- The register `GEN_CONFIG0_REG` and the four timers. -/
structure Registers where
  config0 : BitVec 64
  chips : Fin 4 → Chip

/-- The commands of the device. -/
inductive Cmd where
  | enable
  | disable
  | set
  | get
  | other
deriving Repr, DecidableEq

/-- The values of an `int` that are not negative. -/
abbrev Channel := Fin 0x80000000

/-- `struct rt_pwm_configuration`.  As an `int` the channel is not negative: `%` would
keep its sign, and the driver would leave the array of its timers. -/
structure Configuration where
  channel : Channel
  period : BitVec 32
  pulse : BitVec 32

/-- The results of `loongson_pwm_ioctl`. -/
inductive Err where
  | eok
  | enosys
  | einval
deriving Repr, DecidableEq

/-- `channel %= 4`. -/
def chipOf (channel : Channel) : Fin 4 :=
  ⟨channel.val % 4, Nat.mod_lt _ (by decide)⟩

/-- A store to one timer. -/
def Registers.withChip (s : Registers) (c : Fin 4) (chip : Chip) : Registers :=
  { s with chips := Function.update s.chips c chip }

/-- `loongson_pwm_enable`: routes the output to its pin and sets the enable bit. -/
def loongsonPwmEnable (channel : Channel) (s : Registers) : Registers :=
  let c := chipOf channel
  let m := 1#64 <<< (12 + c.val)
  let s := { s with config0 := s.config0 ||| m }
  s.withChip c { s.chips c with ctrl := CTRL_EN }

/-- `loongson_pwm_disable`: clears the enable bit. -/
def loongsonPwmDisable (channel : Channel) (s : Registers) : Registers :=
  let c := chipOf channel
  s.withChip c { s.chips c with ctrl := (s.chips c).ctrl &&& ~~~CTRL_EN }

/-- `loongson_pwm_set`: writes the period and the pulse. -/
def loongsonPwmSet (channel : Channel) (period pulse : BitVec 32) (s : Registers) :
    Registers :=
  let c := chipOf channel
  s.withChip c
    { fullBuffer := period
      lowBuffer := pulse
      ctrl := ((s.chips c).ctrl &&& ~~~CTRL_EN) ||| CTRL_EN }

/-- A call of `control` by the framework. -/
structure Request where
  cmd : Cmd
  cfg : Configuration

/-- `loongson_pwm_ioctl`: the command decides which function is called. -/
def loongsonPwmIoctl (s : Registers) (r : Request) : Err × Registers :=
  match r.cmd with
  | .enable => (.eok, loongsonPwmEnable r.cfg.channel s)
  | .disable => (.eok, loongsonPwmDisable r.cfg.channel s)
  | .set => (.eok, loongsonPwmSet r.cfg.channel r.cfg.period r.cfg.pulse s)
  | .get => (.enosys, s)
  | .other => (.einval, s)

/-! ## Four timers -/

/-- What a timer is for: a signal that may run and may be connected to its pin. -/
@[ext]
structure Timer where
  routed : Bool
  running : Bool
  period : BitVec 32
  pulse : BitVec 32
deriving DecidableEq

/-- The signal is on the pin. -/
def Timer.heard (t : Timer) : Bool :=
  t.routed && t.running

/-- What a request does to the timer it names. -/
def Timer.after (t : Timer) (r : Request) : Timer :=
  match r.cmd with
  | .enable => { t with routed := true, running := true }
  | .disable => { t with running := false }
  | .set => { t with running := true, period := r.cfg.period, pulse := r.cfg.pulse }
  | .get => t
  | .other => t

/-- What a request returns. -/
def Request.answer (r : Request) : Err :=
  match r.cmd with
  | .get => .enosys
  | .other => .einval
  | _ => .eok

/-- The timers that the registers describe. -/
def Registers.timer (s : Registers) (c : Fin 4) : Timer where
  routed := s.config0.getLsbD (12 + c.val)
  running := (s.chips c).ctrl.getLsbD 0
  period := (s.chips c).fullBuffer
  pulse := (s.chips c).lowBuffer

@[simp]
theorem Registers.withChip_config0 (s : Registers) (c : Fin 4) (chip : Chip) :
    (s.withChip c chip).config0 = s.config0 :=
  rfl

@[simp]
theorem Registers.withChip_chips (s : Registers) (c : Fin 4) (chip : Chip) :
    (s.withChip c chip).chips = Function.update s.chips c chip :=
  rfl

/-- Storing to a timer shows in this timer only. -/
theorem Registers.timer_withChip (s : Registers) (c c' : Fin 4) (chip : Chip) :
    (s.withChip c chip).timer c' =
      if c' = c then
        ⟨s.config0.getLsbD (12 + c.val), chip.ctrl.getLsbD 0, chip.fullBuffer, chip.lowBuffer⟩
      else s.timer c' := by
  by_cases hc : c' = c
  · subst hc
    simp [Registers.timer]
  · simp [Registers.timer, hc]

/-- Connecting a timer to its pin. -/
theorem Registers.timer_route (s : Registers) (c c' : Fin 4) :
    Registers.timer { s with config0 := s.config0 ||| 1#64 <<< (12 + c.val) } c' =
      if c' = c then { s.timer c with routed := true } else s.timer c' := by
  have hbit : (s.config0 ||| 1#64 <<< (12 + c.val)).getLsbD (12 + c'.val) =
      if 12 + c'.val = 12 + c.val then true else s.config0.getLsbD (12 + c'.val) := by
    rw [Bits.getLsbD_or_mask _ (by omega)]
    simp [Bool.or_comm]
  unfold Registers.timer
  rw [hbit]
  by_cases hc : c' = c
  · subst hc
    simp
  · have hval : 12 + c'.val ≠ 12 + c.val := fun h => hc (Fin.ext (by omega))
    rw [if_neg hval, if_neg hc]

@[simp]
theorem CTRL_EN_bit : CTRL_EN.getLsbD 0 = true := by
  simp [CTRL_EN]

/-- Enabling routes and starts one timer. -/
theorem timer_enable (s : Registers) (channel : Channel) :
    (loongsonPwmEnable channel s).timer =
      Function.update s.timer (chipOf channel)
        { s.timer (chipOf channel) with routed := true, running := true } := by
  funext c
  have hroute := Registers.timer_route s (chipOf channel) c
  unfold loongsonPwmEnable
  rw [Registers.timer_withChip, hroute]
  by_cases hc : c = chipOf channel
  · subst hc
    have hself := congrArg Timer.routed (Registers.timer_route s (chipOf channel) (chipOf channel))
    rw [if_pos rfl] at hself
    simp only [Registers.timer] at hself
    simp [Registers.timer, hself]
  · simp [hc]

/-- Disabling stops one timer. -/
theorem timer_disable (s : Registers) (channel : Channel) :
    (loongsonPwmDisable channel s).timer =
      Function.update s.timer (chipOf channel)
        { s.timer (chipOf channel) with running := false } := by
  funext c
  unfold loongsonPwmDisable
  rw [Registers.timer_withChip]
  by_cases hc : c = chipOf channel
  · simp [hc, Registers.timer]
  · simp [hc]

/-- Setting starts one timer with a new period and pulse. -/
theorem timer_set (s : Registers) (channel : Channel) (period pulse : BitVec 32) :
    (loongsonPwmSet channel period pulse s).timer =
      Function.update s.timer (chipOf channel)
        { s.timer (chipOf channel) with running := true, period := period, pulse := pulse } := by
  funext c
  unfold loongsonPwmSet
  rw [Registers.timer_withChip]
  by_cases hc : c = chipOf channel
  · simp [hc, Registers.timer]
  · simp [hc]

/-- The timers, one step for each request. -/
def timersStep : (Fin 4 → Timer) → Request → Err × (Fin 4 → Timer) :=
  updateAt (fun r => chipOf r.cfg.channel) Timer.after Request.answer

/-- The driver on registers behaves as four timers. -/
theorem simulates_ioctl : Simulates Registers.timer loongsonPwmIoctl timersStep := by
  intro s r
  rcases r with ⟨cmd, cfg⟩
  cases cmd with
  | enable => exact ⟨rfl, timer_enable s cfg.channel⟩
  | disable => exact ⟨rfl, timer_disable s cfg.channel⟩
  | set => exact ⟨rfl, timer_set s cfg.channel cfg.period cfg.pulse⟩
  | get => exact ⟨rfl, (Function.update_eq_self _ _).symm⟩
  | other => exact ⟨rfl, (Function.update_eq_self _ _).symm⟩

/-- After any requests each timer is what the requests that name it make of it, in
their order, and every request is answered by its command alone. -/
theorem channel_ioctl_run (s : Registers) (rs : List Request) :
    (runOutputs loongsonPwmIoctl s rs).1 = rs.map Request.answer ∧
      ∀ c, (runOutputs loongsonPwmIoctl s rs).2.timer c =
        (rs.filter fun r => chipOf r.cfg.channel = c).foldl Timer.after (s.timer c) := by
  rcases simulates_ioctl.run s rs with ⟨houts, htimers⟩
  constructor
  · rw [houts, timersStep, runOutputs_updateAt_fst]
  · intro c
    rw [htimers, timersStep, runOutputs_updateAt]

end Pwm
end Ls2kMorse
