import Ls2kMorse.Spi.ChipSelect

/-!
# The converter

The converter has a 16-bit configuration register, held by the driver as a union
of bit-fields and of two bytes.  `ads1118_getADCValue` selects the inputs, sends
the register twice in one selection and, unless the last reading was of the same
kind, does so a second time; `lastSensorMode` starts as "none" and is never
assigned, so there are always two passes.

Main results:

- Theorem `getADCValue_accesses`: a conversion begins by selecting the converter
  and sending a byte.
-/

namespace Ls2kMorse
namespace Spi

/-! ## The configuration register -/

/-- The bit-fields of the register, from bit 0 upwards. -/
structure Bits where
  reserved : BitVec 1
  noOperation : BitVec 2
  pullUp : BitVec 1
  sensorMode : BitVec 1
  rate : BitVec 3
  operatingMode : BitVec 1
  pga : BitVec 3
  mux : BitVec 3
  singleStart : BitVec 1
deriving Repr, DecidableEq

/-- The low byte of the union. -/
def Bits.lsb (bits : Bits) : BitVec 8 :=
  bits.rate ++ bits.sensorMode ++ bits.pullUp ++ bits.noOperation ++ bits.reserved

/-- The high byte of the union. -/
def Bits.msb (bits : Bits) : BitVec 8 :=
  bits.singleStart ++ bits.mux ++ bits.pga ++ bits.operatingMode

/-- The converter measures a voltage. -/
def ADC_MODE : UInt8 := 0

/-- The converter runs on its own. -/
def CONTINUOUS : UInt8 := 0

/-- The converter waits for a start. -/
def SINGLE_SHOT : UInt8 := 1

/-- The pull-up of the output is on. -/
def DOUT_PULLUP : UInt8 := 1

/-- The pull-up of the output is off. -/
def DOUT_NO_PULLUP : UInt8 := 0

/-- The default values of the fields. -/
def bits : Bits where
  reserved := 1
  noOperation := 0b01
  pullUp := 1
  sensorMode := 0
  rate := 0b000
  operatingMode := 1
  pga := 0b111
  mux := 0b000
  singleStart := 1

/-- The conversion times in milliseconds, by sampling rate. -/
def CONV_TIME : Vector Nat 8 :=
  #v[125, 63, 32, 16, 8, 4, 3, 2]

/-- The static variables of the driver. -/
structure Ads1118 where
  configRegister : Bits
  lastSensorMode : UInt8
deriving Repr, DecidableEq

/-- State after `ads1118_begin` on a fresh start. -/
def ads1118Begin : Ads1118 where
  configRegister := bits
  lastSensorMode := 3

/-! ## The setters -/

/-- `ads1118_setSamplingRate`. -/
def setSamplingRate (samplingRate : UInt8) (configRegister : Bits) : Bits :=
  { configRegister with rate := samplingRate.toBitVec.setWidth 3 }

/-- `ads1118_setFullScaleRange`. -/
def setFullScaleRange (fsr : UInt8) (configRegister : Bits) : Bits :=
  { configRegister with pga := fsr.toBitVec.setWidth 3 }

/-- `ads1118_setInputSelected`. -/
def setInputSelected (input : UInt8) (configRegister : Bits) : Bits :=
  { configRegister with mux := input.toBitVec.setWidth 3 }

/-- `ads1118_setContinuousMode`. -/
def setContinuousMode (configRegister : Bits) : Bits :=
  { configRegister with operatingMode := CONTINUOUS.toBitVec.setWidth 1 }

/-- `ads1118_setSingleShotMode`. -/
def setSingleShotMode (configRegister : Bits) : Bits :=
  { configRegister with operatingMode := SINGLE_SHOT.toBitVec.setWidth 1 }

/-- As in the source, it is the operating mode that is assigned. -/
def disablePullup (configRegister : Bits) : Bits :=
  { configRegister with operatingMode := DOUT_NO_PULLUP.toBitVec.setWidth 1 }

/-- As in the source, it is the operating mode that is assigned. -/
def enablePullup (configRegister : Bits) : Bits :=
  { configRegister with operatingMode := DOUT_PULLUP.toBitVec.setWidth 1 }

/-! ## A conversion -/

/-- One pass of the loop: select, send the register twice, release, wait. -/
def conversionPass (configRegister : Bits) : List Access :=
  spiSetCsn 0xbf ++
    spiWriteForResponse .ads (UInt8.ofBitVec configRegister.msb) ++
    spiWriteForResponse .ads (UInt8.ofBitVec configRegister.lsb) ++
    spiWriteForResponse .ads (UInt8.ofBitVec configRegister.msb) ++
    spiWriteForResponse .ads (UInt8.ofBitVec configRegister.lsb) ++
    spiSetCsn 0xff ++
    List.replicate (CONV_TIME.get configRegister.rate.toFin) .delay

/-- `ads1118_getADCValue`: the accesses and the state behind it. -/
def getADCValue (inputs : UInt8) (s : Ads1118) : List Access × Ads1118 :=
  let (count, configRegister) :=
    if s.lastSensorMode = ADC_MODE then (1, s.configRegister)
    else (0, { s.configRegister with sensorMode := ADC_MODE.toBitVec.setWidth 1 })
  let configRegister := { configRegister with mux := inputs.toBitVec.setWidth 3 }
  ((List.replicate (2 - count) (conversionPass configRegister)).flatten,
    { s with configRegister := configRegister })

/-- A conversion begins by selecting the converter and sending a byte. -/
theorem getADCValue_accesses (inputs : UInt8) (s : Ads1118) :
    ∃ data rest, (getADCValue inputs s).1 = .storeCsn 0xbf :: .tx .ads data :: rest := by
  unfold getADCValue
  by_cases h : s.lastSensorMode = ADC_MODE
  · simp only [if_pos h]
    exact ⟨_, _, rfl⟩
  · simp only [if_neg h]
    exact ⟨_, _, rfl⟩

end Spi
end Ls2kMorse
