import Ls2kMorse.Spi.Ads1118

/-!
# Settings of the converter

Every field of the configuration register has its own setters, or none.  The
setters of the pull-up assign the operating mode in its place, where disabling the
pull-up has the value of the continuous mode and enabling it that of the single-shot
mode.

Main results:

- Theorem `assignsOwn_iff`: when a call assigns its own fields only.
- Theorem `along_assignsOwn_iff`: when all calls of a history do.
- Theorem `independent_iff`: when the settings are independent in a history.
-/

namespace Ls2kMorse
namespace Spi

open Lib.Trace

/-! ## Calls and fields -/

/-- A call behind `ads1118_begin`. -/
inductive Call where
  | setSamplingRate (samplingRate : UInt8)
  | setFullScaleRange (fsr : UInt8)
  | setInputSelected (input : UInt8)
  | setContinuousMode
  | setSingleShotMode
  | disablePullup
  | enablePullup
  | getADCValue (inputs : UInt8)
deriving Repr, DecidableEq

/-- The state behind a call. -/
def Call.exec (s : Ads1118) : Call → Ads1118
  | .setSamplingRate samplingRate =>
      { s with configRegister := Spi.setSamplingRate samplingRate s.configRegister }
  | .setFullScaleRange fsr =>
      { s with configRegister := Spi.setFullScaleRange fsr s.configRegister }
  | .setInputSelected input =>
      { s with configRegister := Spi.setInputSelected input s.configRegister }
  | .setContinuousMode => { s with configRegister := Spi.setContinuousMode s.configRegister }
  | .setSingleShotMode => { s with configRegister := Spi.setSingleShotMode s.configRegister }
  | .disablePullup => { s with configRegister := Spi.disablePullup s.configRegister }
  | .enablePullup => { s with configRegister := Spi.enablePullup s.configRegister }
  | .getADCValue inputs => (Spi.getADCValue inputs s).2

/-- The fields of the configuration word. -/
inductive Field where
  | reserved
  | noOperation
  | pullUp
  | sensorMode
  | rate
  | operatingMode
  | pga
  | mux
  | singleStart
deriving Repr, DecidableEq

/-- The value of a field. -/
def Bits.get (bits : Bits) : Field → Nat
  | .reserved => bits.reserved.toNat
  | .noOperation => bits.noOperation.toNat
  | .pullUp => bits.pullUp.toNat
  | .sensorMode => bits.sensorMode.toNat
  | .rate => bits.rate.toNat
  | .operatingMode => bits.operatingMode.toNat
  | .pga => bits.pga.toNat
  | .mux => bits.mux.toNat
  | .singleStart => bits.singleStart.toNat

/-- A field of the register. -/
def Ads1118.get (s : Ads1118) (f : Field) : Nat :=
  s.configRegister.get f

/-! ## What the calls are for -/

/-- The field that a call is the setter of, and the value it gives to the field, as
far as it fits.  A reading selects its inputs and the kind of the reading. -/
def Call.sets : Call → Field → Option Nat
  | .setSamplingRate samplingRate, .rate => some (samplingRate.toNat % 8)
  | .setFullScaleRange fsr, .pga => some (fsr.toNat % 8)
  | .setInputSelected input, .mux => some (input.toNat % 8)
  | .setContinuousMode, .operatingMode => some CONTINUOUS.toNat
  | .setSingleShotMode, .operatingMode => some SINGLE_SHOT.toNat
  | .disablePullup, .pullUp => some DOUT_NO_PULLUP.toNat
  | .enablePullup, .pullUp => some DOUT_PULLUP.toNat
  | .getADCValue inputs, .mux => some (inputs.toNat % 8)
  | .getADCValue _, .sensorMode => some ADC_MODE.toNat
  | _, _ => none

/-- A call changes no field that it is not a setter of. -/
def ChangesOwn (s : Ads1118) (call : Call) : Prop :=
  ∀ f, call.sets f = none → (call.exec s).get f = s.get f

/-- Behind every call of the history each field holds the value of the last call of
its own setters, or its default, and no call has changed another field. -/
def Independent (calls : List Call) : Prop :=
  (∀ pre, pre <+: calls → ∀ f,
    (pre.foldl Call.exec ads1118Begin).get f = lastSet Call.sets bits.get pre f) ∧
  Along Call.exec ChangesOwn ads1118Begin calls

/-- The pull-up is never disabled, and never enabled in continuous mode. -/
def PullupKept : Bool → List Call → Prop
  | _, [] => True
  | _, .setContinuousMode :: calls => PullupKept true calls
  | _, .setSingleShotMode :: calls => PullupKept false calls
  | _, .disablePullup :: _ => False
  | continuous, .enablePullup :: calls => continuous = false ∧ PullupKept continuous calls
  | continuous, _ :: calls => PullupKept continuous calls

/-! ## One call -/

/-- No call assigns the pull-up, or the kind of the last reading. -/
def Unassigned (s : Ads1118) : Prop :=
  s.configRegister.pullUp = 1 ∧ s.lastSensorMode = 3

/-- A conversion writes two fields of the configuration. -/
theorem getADCValue_state {s : Ads1118} (h : s.lastSensorMode = 3) (inputs : UInt8) :
    (getADCValue inputs s).2 =
      { s with configRegister := { s.configRegister with
          sensorMode := ADC_MODE.toBitVec.setWidth 1
          mux := inputs.toBitVec.setWidth 3 } } := by
  have hnone : s.lastSensorMode ≠ ADC_MODE := by
    rw [h]
    decide
  simp only [getADCValue, if_neg hnone]

/-- A call leaves the pull-up and the kind of the last reading as they are. -/
theorem Unassigned.exec {s : Ads1118} (h : Unassigned s) (call : Call) :
    Unassigned (call.exec s) := by
  cases call with
  | getADCValue inputs =>
      change Unassigned (getADCValue inputs s).2
      rw [getADCValue_state h.2]
      exact h
  | setSamplingRate samplingRate => exact h
  | setFullScaleRange fsr => exact h
  | setInputSelected input => exact h
  | setContinuousMode => exact h
  | setSingleShotMode => exact h
  | disablePullup => exact h
  | enablePullup => exact h

/-- The setters of the pull-up meet their purpose only when they have no effect. -/
theorem assignsOwn_iff {s : Ads1118} (h : Unassigned s) (call : Call) :
    AssignsOwn Call.exec Ads1118.get Call.sets s call ↔
      call ≠ .disablePullup ∧
        (call = .enablePullup → s.configRegister.operatingMode = 1) := by
  cases call with
  | setSamplingRate samplingRate =>
      exact iff_of_true (fun f => by cases f <;> rfl) ⟨nofun, nofun⟩
  | setFullScaleRange fsr => exact iff_of_true (fun f => by cases f <;> rfl) ⟨nofun, nofun⟩
  | setInputSelected input => exact iff_of_true (fun f => by cases f <;> rfl) ⟨nofun, nofun⟩
  | setContinuousMode => exact iff_of_true (fun f => by cases f <;> rfl) ⟨nofun, nofun⟩
  | setSingleShotMode => exact iff_of_true (fun f => by cases f <;> rfl) ⟨nofun, nofun⟩
  | getADCValue inputs =>
      refine iff_of_true ?_ ⟨nofun, nofun⟩
      intro f
      change (getADCValue inputs s).2.get f = _
      rw [getADCValue_state h.2]
      cases f <;> rfl
  | disablePullup =>
      apply iff_of_false _ fun hne => hne.1 rfl
      intro howns
      have hpull : s.configRegister.pullUp.toNat = 0 := howns .pullUp
      rw [h.1] at hpull
      exact absurd hpull (by decide)
  | enablePullup =>
      constructor
      · intro howns
        refine ⟨nofun, fun _ => ?_⟩
        have hmode : 1 = s.configRegister.operatingMode.toNat := howns .operatingMode
        exact BitVec.eq_of_toNat_eq hmode.symm
      · rintro ⟨-, hmode⟩ f
        have hpull : s.configRegister.pullUp.toNat = 1 := congrArg BitVec.toNat h.1
        have hone : s.configRegister.operatingMode.toNat = 1 := congrArg BitVec.toNat (hmode rfl)
        cases f with
        | pullUp => exact hpull
        | operatingMode => exact hone.symm
        | _ => rfl

/-! ## Histories -/

/-- The value of the operating mode, by whether the mode is continuous. -/
def operatingModeOf (continuous : Bool) : BitVec 1 :=
  if continuous then 0 else 1

/-- Each call of a history assigns its own field exactly when the pull-up is kept. -/
theorem along_assignsOwn_iff (calls : List Call) (continuous : Bool) {s : Ads1118}
    (h : Unassigned s) (hmode : s.configRegister.operatingMode = operatingModeOf continuous) :
    Along Call.exec (AssignsOwn Call.exec Ads1118.get Call.sets) s calls ↔
      PullupKept continuous calls := by
  induction calls generalizing continuous s with
  | nil => exact Iff.rfl
  | cons call calls ih =>
      have hnext := h.exec call
      rw [along_cons, assignsOwn_iff h]
      cases call with
      | setContinuousMode => exact (and_iff_right ⟨nofun, nofun⟩).trans (ih true hnext rfl)
      | setSingleShotMode => exact (and_iff_right ⟨nofun, nofun⟩).trans (ih false hnext rfl)
      | disablePullup => exact iff_of_false (fun hcall => hcall.1.1 rfl) id
      | enablePullup =>
          cases continuous with
          | false =>
              have hrest := ih false hnext rfl
              exact and_congr (iff_of_true ⟨nofun, fun _ => hmode⟩ rfl) hrest
          | true =>
              apply iff_of_false
              · intro hcall
                have hone := hcall.1.2 rfl
                rw [hmode] at hone
                exact absurd hone (by decide)
              · intro hkept
                exact Bool.noConfusion hkept.1
      | getADCValue inputs =>
          have hmodeNext : (Call.exec s (.getADCValue inputs)).configRegister.operatingMode =
              operatingModeOf continuous := by
            change (getADCValue inputs s).2.configRegister.operatingMode = _
            rw [getADCValue_state h.2]
            exact hmode
          exact (and_iff_right ⟨nofun, nofun⟩).trans (ih continuous hnext hmodeNext)
      | setSamplingRate samplingRate =>
          exact (and_iff_right ⟨nofun, nofun⟩).trans (ih continuous hnext hmode)
      | setFullScaleRange fsr =>
          exact (and_iff_right ⟨nofun, nofun⟩).trans (ih continuous hnext hmode)
      | setInputSelected input =>
          exact (and_iff_right ⟨nofun, nofun⟩).trans (ih continuous hnext hmode)

/-- A call that assigns its own fields only changes no other. -/
theorem ChangesOwn.of_assignsOwn (s : Ads1118) (call : Call)
    (h : AssignsOwn Call.exec Ads1118.get Call.sets s call) : ChangesOwn s call := by
  intro f hf
  rw [h f, hf, Option.getD_none]

/-- In a history the settings are independent, if and only if the pull-up is never
disabled in it, and never enabled in continuous mode. -/
theorem independent_iff (calls : List Call) : Independent calls ↔ PullupKept false calls := by
  have hown : Along Call.exec (AssignsOwn Call.exec Ads1118.get Call.sets) ads1118Begin calls ↔
      PullupKept false calls := along_assignsOwn_iff calls false ⟨rfl, rfl⟩ rfl
  have hholds : (∀ pre, pre <+: calls → ∀ f,
      (pre.foldl Call.exec ads1118Begin).get f = lastSet Call.sets bits.get pre f) ↔
      Along Call.exec (AssignsOwn Call.exec Ads1118.get Call.sets) ads1118Begin calls :=
    holds_lastSet_iff ads1118Begin calls
  constructor
  · intro h
    exact hown.mp (hholds.mp h.1)
  · intro h
    have halong := hown.mpr h
    exact ⟨hholds.mpr halong, halong.mono ChangesOwn.of_assignsOwn⟩

/-- Behind the calls of `ads1118_test` the pull-up is still enabled, and enabling it
ends the continuous mode. -/
theorem independent_test :
    ¬ Independent [.setSamplingRate 7, .setInputSelected 4, .setFullScaleRange 2,
        .setContinuousMode, .disablePullup] ∧
      ¬ Independent [.setContinuousMode, .enablePullup] := by
  constructor
  · intro h
    have hpull := h.1 _ (List.prefix_refl _) .pullUp
    exact absurd hpull (by decide)
  · intro h
    have hmode := h.2.2.1 .operatingMode rfl
    exact absurd hmode (by decide)

end Spi
end Ls2kMorse
