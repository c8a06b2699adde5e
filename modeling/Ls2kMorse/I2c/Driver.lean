import Mathlib.Data.List.Basic
import Mathlib.Tactic.Common

/-!
# The I2C driver

The driver of `drv_i2c.c` puts bytes on the bus through the command register and
looks at the answers of the slave.  The model takes the controller and the slave
behind it as a parameter that answers each command, and returns besides the result
of a function the events on the bus.  A transfer keeps the events of its messages
apart.

Neither `i2c_transfer` nor the API functions look at the number of bytes that
`ls2k_i2c_write` reports, and the API functions drop the result of the transfer.
-/

namespace Ls2kMorse
namespace I2c

/-! ## The bus -/

/-- What happens on the bus: an address byte behind a START, a data byte in either
direction, a STOP command repeated while the bus stayed busy. -/
inductive Event where
  | start (addr : UInt8) (ack : Bool)
  | write (byte : UInt8) (ack : Bool)
  | read (byte : UInt8) (last : Bool)
  | stop (again : Nat)
deriving Repr, DecidableEq

/-- The controller with its slave.  Each command is answered once `SR_TIP` has
cleared: `start` and `write` by the bit `SR_NOACK` (`true` for an acknowledge),
`read` by the byte received, `stop` by the number of times `SR_BUSY` is still seen
and the command repeated. -/
structure Bus (σ : Type) where
  /-- `CR_START | CR_WRITE` with the address in the transmit register. -/
  start : σ → UInt8 → Bool × σ
  /-- `CR_WRITE` with the byte in the transmit register. -/
  write : σ → UInt8 → Bool × σ
  /-- `CR_READ`, together with `CR_ACK` when the flag is set. -/
  read : σ → Bool → UInt8 × σ
  /-- `CR_STOP` until the bus is free. -/
  stop : σ → Nat × σ

/-- The result of a driver function, the state of the device and what happened on
the bus. -/
structure Result (σ α : Type) where
  value : α
  dev : σ
  events : List Event

variable {σ : Type}

/-! ## Bytes -/

/-- `ls2k_i2c_stop`: the stop command, repeated while the bus stays busy. -/
def ls2kI2cStop (bus : Bus σ) (dev : σ) : Result σ Unit :=
  let (again, dev) := bus.stop dev
  { value := (), dev := dev, events := [.stop again] }

/-- The attempts of `ls2k_i2c_start`; each one without an answer ends with a STOP. -/
def startAttempts (bus : Bus σ) (addr : UInt8) : Nat → σ → Result σ Bool
  | retry, dev =>
      let (ack, dev) := bus.start dev addr
      if ack then { value := true, dev := dev, events := [.start addr true] }
      else
        let stopped := ls2kI2cStop bus dev
        match retry with
        | 0 => { stopped with value := false, events := .start addr false :: stopped.events }
        | retry + 1 =>
            let later := startAttempts bus addr retry stopped.dev
            { later with events := .start addr false :: stopped.events ++ later.events }

/-- `ls2k_i2c_start`: the address is sent as it is, the flags are not used. -/
def ls2kI2cStart (bus : Bus σ) (devAddr : UInt16) (_flags : UInt16) (dev : σ) :
    Result σ Bool :=
  startAttempts bus devAddr.toUInt8 5 dev

/-- `ls2k_i2c_read`: the bytes stored into `buf`; the last one is not acknowledged. -/
def ls2kI2cRead (bus : Bus σ) : Nat → σ → Result σ (List UInt8)
  | 0, dev => { value := [], dev := dev, events := [] }
  | count + 1, dev =>
      let last := count == 0
      let (byte, dev) := bus.read dev last
      let rest := ls2kI2cRead bus count dev
      { rest with value := byte :: rest.value, events := .read byte last :: rest.events }

/-- The loop of `ls2k_i2c_write` with `i` bytes behind it. -/
def writeBytes (bus : Bus σ) : Nat → List UInt8 → σ → Result σ Nat
  | i, [], dev => { value := i, dev := dev, events := [] }
  | i, byte :: buf, dev =>
      let (ack, dev) := bus.write dev byte
      if ack then
        let rest := writeBytes bus (i + 1) buf dev
        { rest with events := .write byte true :: rest.events }
      else
        let stopped := ls2kI2cStop bus dev
        { stopped with value := 0, events := .write byte false :: stopped.events }

/-- `ls2k_i2c_write`: sends the bytes of `buf`; its value is the number sent, and 0
after a byte that is not acknowledged. -/
def ls2kI2cWrite (bus : Bus σ) (buf : List UInt8) (dev : σ) : Result σ Nat :=
  writeBytes bus 0 buf dev

/-! ## Messages -/

/-- The message is read from the slave. -/
def I2C_M_RD : UInt16 := 0x0001

/-- The message goes on without a start condition. -/
def I2C_M_NOSTART : UInt16 := 0x4000

/-- A message; `buf` is the memory from its data pointer on. -/
structure I2cMsg where
  addr : UInt16
  flags : UInt16
  len : UInt16
  buf : Nat → UInt8

/-- The data of a message. -/
def I2cMsg.bytes (m : I2cMsg) : List UInt8 :=
  (List.range m.len.toNat).map m.buf

@[simp]
theorem I2cMsg.length_bytes (m : I2cMsg) : m.bytes.length = m.len.toNat := by
  simp [I2cMsg.bytes]

/-- The events of a message and the bytes stored through its data pointer. -/
structure MsgRun where
  events : List Event
  stored : List UInt8

/-- The start phase of a message, none with `I2C_M_NOSTART`. -/
def startMsg (bus : Bus σ) (m : I2cMsg) (dev : σ) : Result σ Bool :=
  if m.flags &&& I2C_M_NOSTART = 0 then ls2kI2cStart bus m.addr m.flags dev
  else { value := true, dev := dev, events := [] }

/-- The data phase of a message.  What `ls2k_i2c_write` returns is not used. -/
def moveMsg (bus : Bus σ) (m : I2cMsg) (dev : σ) : Result σ (List UInt8) :=
  if m.flags &&& I2C_M_RD ≠ 0 then ls2kI2cRead bus m.len.toNat dev
  else { ls2kI2cWrite bus m.bytes dev with value := [] }

/-- The result of a transfer, the events of the messages that were begun and those
of the final STOP. -/
structure Transfer (σ : Type) where
  value : Nat
  dev : σ
  runs : List MsgRun
  stops : List Event

/-- All events of a transfer. -/
def Transfer.events (t : Transfer σ) : List Event :=
  t.runs.flatMap MsgRun.events ++ t.stops

/-- The loop of `i2c_transfer` with `i` messages behind it. -/
def transferMsgs (bus : Bus σ) : Nat → List I2cMsg → σ → Transfer σ
  | i, [], dev =>
      let stopped := ls2kI2cStop bus dev
      { value := i, dev := stopped.dev, runs := [], stops := stopped.events }
  | i, m :: msgs, dev =>
      let started := startMsg bus m dev
      if started.value then
        let moved := moveMsg bus m started.dev
        let rest := transferMsgs bus (i + 1) msgs moved.dev
        { rest with runs := ⟨started.events ++ moved.events, moved.value⟩ :: rest.runs }
      else { value := 0, dev := started.dev, runs := [⟨started.events, []⟩], stops := [] }

/-- `i2c_transfer`: the messages in order. -/
def i2cTransfer (bus : Bus σ) (msgs : List I2cMsg) (dev : σ) : Transfer σ :=
  transferMsgs bus 0 msgs dev

/-! ## The two API functions -/

/-- The conversion of an `int` to the 16-bit length of a message. -/
def toLen (n : Int) : UInt16 :=
  UInt16.ofNat (n % 65536).toNat

/-- The memory from the parameter `addr` on: its four bytes, low byte first, and
what lies behind it. -/
def paramBytes (addr : UInt32) (beyond : Nat → UInt8) (i : Nat) : UInt8 :=
  if i < 4 then (addr >>> UInt32.ofNat (8 * i)).toUInt8 else beyond (i - 4)

/-- What an API function returns, and its transfer. -/
structure ApiRun (σ : Type) where
  value : Int
  transfer : Transfer σ

/-- The bytes stored by the second message. -/
def ApiRun.buffer (r : ApiRun σ) : List UInt8 :=
  match r.transfer.runs with
  | [_, run] => run.stored
  | _ => []

/-- The messages of `i2c_read`; `buffer` is the memory that will be overwritten. -/
def readMsgs (chip : UInt8) (addr : UInt32) (beyond : Nat → UInt8) (alen : Int)
    (buffer : Nat → UInt8) (len : Int) : List I2cMsg :=
  [ { addr := chip.toUInt16, flags := 0, len := toLen alen, buf := paramBytes addr beyond },
    { addr := chip.toUInt16, flags := I2C_M_RD, len := toLen len, buf := buffer } ]

/-- The messages of `i2c_write`. -/
def writeMsgs (chip : UInt8) (addr : UInt32) (beyond : Nat → UInt8) (alen : Int)
    (buffer : Nat → UInt8) (len : Int) : List I2cMsg :=
  [ { addr := chip.toUInt16, flags := 0, len := toLen alen, buf := paramBytes addr beyond },
    { addr := chip.toUInt16, flags := I2C_M_NOSTART, len := toLen len, buf := buffer } ]

/-- `i2c_read`: the result of the transfer is not used. -/
def i2cRead (bus : Bus σ) (chip : UInt8) (addr : UInt32) (beyond : Nat → UInt8) (alen : Int)
    (buffer : Nat → UInt8) (len : Int) (dev : σ) : ApiRun σ where
  value := 0
  transfer := i2cTransfer bus (readMsgs chip addr beyond alen buffer len) dev

/-- `i2c_write`: the result of the transfer is not used. -/
def i2cWrite (bus : Bus σ) (chip : UInt8) (addr : UInt32) (beyond : Nat → UInt8) (alen : Int)
    (buffer : Nat → UInt8) (len : Int) (dev : σ) : ApiRun σ where
  value := 0
  transfer := i2cTransfer bus (writeMsgs chip addr beyond alen buffer len) dev

end I2c
end Ls2kMorse
