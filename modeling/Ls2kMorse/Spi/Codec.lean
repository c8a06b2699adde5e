import Ls2kMorse.Lib.Simulation
import Ls2kMorse.Recorder.Fifo
import Ls2kMorse.Spi.Settings
import Ls2kMorse.Spi.Vs1003

/-!
# The codec behind the wires

A register access of the codec is a frame of four bytes while `xCs` is low, and data are
bytes while `xDcs` is low.  What the codec does with a register and with data is a
parameter; the module decodes the accesses of the drivers as the codec does.  A
conversion selects the codec, too, and sends it a frame, which does nothing there: its
first byte begins with the start bit of the converter.

A byte that comes back waits in the receive FIFO of the controller until the driver loads
it, and no driver empties that FIFO.  A transfer that is cut off between a store and its
load leaves a byte behind, and from then on every load is one byte late.

Main results:

- Theorem `frame_spec`: what a frame of four bytes does.
- Theorem `follows_use`: on the wires the codec gets what is meant for it.
- Theorem `simulates_use`: while no byte is left in the receive FIFO, reads have the
  values of the codec's registers, too.
- Theorem `runOutputs_uses`: the same of every sequence of uses, conversions included.
-/

namespace Ls2kMorse
namespace Spi

open Lib Lib.Simulation

/-! ## The codec -/

/-- What the codec does when a register is read or written, and with a byte of data. -/
structure Chip (σ : Type) where
  read : UInt8 → σ → UInt16 × σ
  write : UInt8 → UInt16 → σ → σ
  data : UInt8 → σ → σ

/-- The controller, the bytes of the frame so far, the low byte of a value that is being
read, the byte that came back last, the bytes in `RXFIFO`, and the bytes that the driver
has loaded from there. -/
structure Wired (σ : Type) where
  controller : Controller
  frame : List UInt8
  low : UInt8
  echo : UInt8
  fifo : List UInt8
  chip : σ
  received : List UInt8

variable {σ : Type}

/-- The word of two bytes. -/
def wordOf (high low : UInt8) : UInt16 :=
  high.toUInt16 <<< 8 ||| low.toUInt16 &&& 0xFF

/-- A byte of a frame.  The value of a register is read at the third byte. -/
def sciByte (c : Chip σ) (d : UInt8) (s : Wired σ) : Wired σ :=
  match s.frame with
  | [command, reg] =>
      if command = VS_READ_COMMAND then
        let (value, chip) := c.read reg s.chip
        { s with
          frame := [command, reg, d]
          low := (value &&& 0xFF).toUInt8
          echo := (value >>> 8).toUInt8
          chip := chip }
      else { s with frame := [command, reg, d] }
  | [command, reg, high] =>
      if command = VS_READ_COMMAND then
        { s with frame := [command, reg, high, d], echo := s.low }
      else if command = VS_WRITE_COMMAND then
        { s with
          frame := [command, reg, high, d]
          chip := c.write reg (wordOf high d) s.chip }
      else { s with frame := [command, reg, high, d] }
  | frame => { s with frame := frame ++ [d] }

/-- A byte on the wire goes to the interface whose line is low. -/
def wireByte (c : Chip σ) (d : UInt8) (s : Wired σ) : Wired σ :=
  if xCs ∈ lowLines s.controller.softcs then sciByte c d s
  else if xDcs ∈ lowLines s.controller.softcs then { s with chip := c.data d s.chip }
  else s

/-- A frame ends when `xCs` is high. -/
def frameOn (low : Finset (Fin 4)) (frame : List UInt8) : List UInt8 :=
  if xCs ∈ low then frame else []

/-- What comes back with a byte goes behind the bytes in `RXFIFO`. -/
def Wired.store (c : Chip σ) (d : UInt8) (s : Wired σ) : Wired σ :=
  let s := wireByte c d s
  { s with fifo := s.fifo ++ [s.echo] }

/-- The driver loads the first byte of `RXFIFO`.  While there is none, it waits; every
load of the drivers is behind a store. -/
def Wired.load (s : Wired σ) : Wired σ :=
  match s.fifo with
  | [] => s
  | response :: fifo => { s with fifo := fifo, received := s.received ++ [response] }

/-- One access. -/
def Wired.exec (c : Chip σ) (s : Wired σ) : Access → Wired σ
  | .tx _ d => s.store c d
  | .rx _ => s.load
  | a =>
      let controller := Spi.exec s.controller a
      { s with controller := controller, frame := frameOn (lowLines controller.softcs) s.frame }

/-! ## Uses of the controller -/

/-- A use of the codec, or a call of the converter's driver. -/
inductive Use where
  | codec (op : Operation)
  | adc (call : Call)

/-- The accesses of a call of the converter's driver. -/
def Call.accesses (a : Ads1118) : Call → List Access
  | .getADCValue inputs => (Spi.getADCValue inputs a).1
  | _ => []

/-- The value that `read_register` makes of the bytes it has read. -/
def Operation.value (received : List UInt8) : Operation → Option UInt16
  | .readRegister _ => do
      let response1 ← received[2]?
      let response2 ← received[3]?
      some (wordOf response1 response2)
  | _ => none

/-- The number of bytes in `RXFIFO` after an access. -/
def Access.fill (k : Nat) : Access → Nat
  | .tx _ _ => k + 1
  | .rx _ => k - 1
  | _ => k

/-- A use that loads every byte that comes back.  A transfer that is cut off between a
store and its load does not. -/
def Use.Settled : Use → Prop
  | .codec (.sdiCut data n) => ((sdiSendBuffer data).take n).foldl Access.fill 0 = 0
  | _ => True

instance : DecidablePred Use.Settled := fun u =>
  match u with
  | .codec (.sdiCut data n) =>
      inferInstanceAs (Decidable (((sdiSendBuffer data).take n).foldl Access.fill 0 = 0))
  | .codec (.readRegister _) => inferInstanceAs (Decidable True)
  | .codec (.writeRegister _ _) => inferInstanceAs (Decidable True)
  | .codec (.sdiSendBuffer _) => inferInstanceAs (Decidable True)
  | .adc _ => inferInstanceAs (Decidable True)

/-- The wires, and the driver of the converter. -/
structure Board (σ : Type) where
  wired : Wired σ
  adc : Ads1118

/-- One use.  The driver's variables for what it loads are new in each call. -/
def Board.use (c : Chip σ) (b : Board σ) : Use → Option UInt16 × Board σ
  | .codec op =>
      let wired := op.accesses.foldl (Wired.exec c) { b.wired with received := [] }
      (op.value wired.received, { b with wired := wired })
  | .adc call =>
      let wired := (call.accesses b.adc).foldl (Wired.exec c) { b.wired with received := [] }
      (none, ⟨wired, call.exec b.adc⟩)

/-- The bytes that accesses send. -/
def sentBytes (accesses : List Access) : List UInt8 :=
  accesses.filterMap fun
    | .tx _ d => some d
    | _ => none

/-- The codec receives data. -/
def Chip.feed (c : Chip σ) (data : List UInt8) (chip : σ) : σ :=
  data.foldl (fun chip d => c.data d chip) chip

/-- What the drivers are for: the codec gets what is meant for it. -/
def Chip.use (c : Chip σ) (chip : σ) : Use → Option UInt16 × σ
  | .codec (.readRegister reg) =>
      let (value, chip) := c.read reg chip
      (some value, chip)
  | .codec (.writeRegister reg value) => (none, c.write reg value chip)
  | .codec (.sdiSendBuffer data) => (none, c.feed data chip)
  | .codec (.sdiCut data n) => (none, c.feed (sentBytes ((sdiSendBuffer data).take n)) chip)
  | .adc _ => (none, chip)

/-! ## Single accesses -/

/-- A frame stays open while the command port is selected. -/
theorem frameOn_of {low : Finset (Fin 4)} {frame : List UInt8} (h : xCs ∈ low ∨ frame = []) :
    frameOn low frame = frame := by
  unfold frameOn
  rcases h with h | h <;> simp [h]

theorem frameOn_nil (low : Finset (Fin 4)) : frameOn low [] = [] :=
  frameOn_of (Or.inr rfl)

section Accesses

variable (c : Chip σ)

/-- Between two uses: `xCs` is high, and there is no frame. -/
structure Wired.Idle (s : Wired σ) : Prop where
  high : xCs ∉ lowLines s.controller.softcs
  frame : s.frame = []

/-- Between two uses, with nothing left in the receive FIFO. -/
structure Wired.Ready (s : Wired σ) : Prop extends Wired.Idle s where
  fifo : s.fifo = []

/-- A wait. -/
theorem exec_wait (s : Wired σ) (h : xCs ∈ lowLines s.controller.softcs ∨ s.frame = [])
    {i : Access} (hi : i = .delay ∨ i = .awaitDataRequest) : s.exec c i = s := by
  rcases hi with rfl | rfl <;> simp [Wired.exec, Spi.exec, frameOn_of h]

/-- Driving a line, with no frame begun. -/
theorem foldl_spiSetCs (s : Wired σ) (h : s.frame = []) (cs : Fin 4) (newStatus : Bool) :
    (spiSetCs cs newStatus).foldl (Wired.exec c) s =
      { s with
        controller := ⟨withCs s.controller.softcs cs newStatus, s.controller.softcs⟩ } := by
  simp [spiSetCs, Wired.exec, Spi.exec, h, frameOn_nil]

/-- Storing all lines. -/
theorem foldl_spiSetCsn (s : Wired σ) (val : BitVec 8) :
    (spiSetCsn val).foldl (Wired.exec c) s =
      { s with
        controller := { s.controller with softcs := val }
        frame := frameOn (lowLines val) s.frame } := by
  simp [spiSetCsn, Wired.exec, Spi.exec]

/-- Releasing all lines ends a use. -/
theorem idle_release (s : Wired σ) : ((spiSetCsn 0xff).foldl (Wired.exec c) s).Idle := by
  rw [foldl_spiSetCsn]
  constructor
  · rw [lowLines_all_high]
    exact Finset.notMem_empty _
  · simp only [frameOn, lowLines_all_high, Finset.notMem_empty, if_false]

@[simp]
theorem wireByte_fifo (d : UInt8) (s : Wired σ) : (wireByte c d s).fifo = s.fifo := by
  unfold wireByte
  split_ifs
  · unfold sciByte
    split
    · split_ifs <;> rfl
    · split_ifs <;> rfl
    · rfl
  · rfl
  · rfl

/-- A byte and its echo, with the receive FIFO empty before. -/
theorem foldl_write (bus : Bus) (d : UInt8) {s : Wired σ} (h : s.fifo = []) :
    (spiWriteForResponse bus d).foldl (Wired.exec c) s =
      { wireByte c d s with
        received := (wireByte c d s).received ++ [(wireByte c d s).echo] } := by
  have hfifo : (wireByte c d s).fifo = [] := by rw [wireByte_fifo, h]
  simp only [spiWriteForResponse, List.foldl_cons, List.foldl_nil, Wired.exec, Wired.store,
    Wired.load, hfifo, List.nil_append]

/-! ## The receive FIFO -/

/-- A load takes a byte, and nothing else happens. -/
theorem load_eq (s : Wired σ) :
    ∃ fifo received, s.load = { s with fifo := fifo, received := received } ∧
      fifo.length = s.fifo.length - 1 := by
  rcases s with ⟨controller, frame, low, echo, fifo, chip, received⟩
  cases fifo with
  | nil => exact ⟨[], received, rfl, rfl⟩
  | cons response fifo => exact ⟨fifo, received ++ [response], rfl, rfl⟩

/-- How full the receive FIFO is. -/
theorem length_fifo (s : Wired σ) (accesses : List Access) :
    (accesses.foldl (Wired.exec c) s).fifo.length =
      accesses.foldl Access.fill s.fifo.length := by
  induction accesses generalizing s with
  | nil => rfl
  | cons i accesses ih =>
      have hstep : (s.exec c i).fifo.length = Access.fill s.fifo.length i := by
        cases i with
        | tx bus d => simp [Wired.exec, Wired.store, Access.fill]
        | rx bus =>
            obtain ⟨fifo, received, hload, hlength⟩ := load_eq s
            rw [Wired.exec, hload]
            exact hlength
        | _ => rfl
      rw [List.foldl_cons, List.foldl_cons, ih, hstep]

/-- A run that loads every answer leaves the controller ready. -/
theorem Wired.Idle.ready {s : Wired σ} {accesses : List Access}
    (h : (accesses.foldl (Wired.exec c) s).Idle) (hfifo : s.fifo = [])
    (hfill : accesses.foldl Access.fill 0 = 0) : (accesses.foldl (Wired.exec c) s).Ready := by
  refine ⟨h, List.length_eq_zero_iff.mp ?_⟩
  rw [length_fifo, hfifo]
  exact hfill

/-- What a frame of four bytes means to the codec. -/
def frameEffect (c : Chip σ) (command reg high low : UInt8) (chip : σ) : σ :=
  if command = VS_READ_COMMAND then (c.read reg chip).2
  else if command = VS_WRITE_COMMAND then c.write reg (wordOf high low) chip
  else chip

/-- The accesses of a frame of four bytes. -/
def frameAccesses (bus : Bus) (command reg high low : UInt8) : List Access :=
  spiWriteForResponse bus command ++ spiWriteForResponse bus reg ++
    spiWriteForResponse bus high ++ spiWriteForResponse bus low

/-- A frame of four bytes, on whichever interface the driver means: the lines stay, the
codec does what the frame means, and a read answers with the value of the register. -/
theorem frame_spec (bus : Bus) (command reg high low : UInt8) (s : Wired σ)
    (hlow : xCs ∈ lowLines s.controller.softcs) (hframe : s.frame = []) (hfifo : s.fifo = []) :
    let s' := (frameAccesses bus command reg high low).foldl (Wired.exec c) s
    s'.controller = s.controller ∧ s'.chip = frameEffect c command reg high low s.chip ∧
      ∃ e₁ e₂ e₃ e₄, s'.received = s.received ++ [e₁, e₂, e₃, e₄] ∧
        (command = VS_READ_COMMAND → e₃ = ((c.read reg s.chip).1 >>> 8).toUInt8 ∧
          e₄ = ((c.read reg s.chip).1 &&& 0xFF).toUInt8) := by
  intro s'
  by_cases hread : command = VS_READ_COMMAND
  · simp [s', frameAccesses, foldl_write, wireByte, hlow, sciByte, hframe, hfifo, hread,
      frameEffect]
  · by_cases hwrite : command = VS_WRITE_COMMAND
    · subst hwrite
      simp [s', frameAccesses, foldl_write, wireByte, hlow, sciByte, hframe, hfifo, hread,
        frameEffect]
    · simp [s', frameAccesses, foldl_write, wireByte, hlow, sciByte, hframe, hfifo, hread,
        hwrite, frameEffect]

/-! ## Register accesses and conversions -/

/-- `control_mode_on` selects the register interface and begins a frame. -/
theorem foldl_controlModeOn {s : Wired σ} (h : s.frame = []) :
    ∃ controller, controlModeOn.foldl (Wired.exec c) s = { s with controller := controller } ∧
      xCs ∈ lowLines controller.softcs := by
  have hne : xCs ≠ xDcs := by decide
  refine ⟨⟨withCs (withCs s.controller.softcs xCs false) xDcs true,
    withCs s.controller.softcs xCs false⟩, ?_, ?_⟩
  · rw [controlModeOn, List.foldl_append, foldl_spiSetCs c s h, foldl_spiSetCs]
    exact h
  · simp [lowLines_withCs, driveLine, hne]

/-- A use that sends one frame and releases all lines. -/
theorem frame_use (bus : Bus) (command reg high low : UInt8) (pre post : List Access)
    {s : Wired σ} {controller : Controller}
    (hpre : pre.foldl (Wired.exec c) s = { s with controller := controller })
    (hlow : xCs ∈ lowLines controller.softcs) (hframe : s.frame = []) (hfifo : s.fifo = [])
    (hpost : ∀ i ∈ post, i = .delay ∨ i = .awaitDataRequest) :
    let s' := (pre ++ frameAccesses bus command reg high low ++ post ++
      spiSetCsn 0xff).foldl (Wired.exec c) s
    s'.Idle ∧ s'.chip = frameEffect c command reg high low s.chip ∧
      ∃ e₁ e₂ e₃ e₄, s'.received = s.received ++ [e₁, e₂, e₃, e₄] ∧
        (command = VS_READ_COMMAND → e₃ = ((c.read reg s.chip).1 >>> 8).toUInt8 ∧
          e₄ = ((c.read reg s.chip).1 &&& 0xFF).toUInt8) := by
  intro s'
  have hwaits : ∀ s : Wired σ, xCs ∈ lowLines s.controller.softcs →
      post.foldl (Wired.exec c) s = s := by
    intro s hs
    induction post with
    | nil => rfl
    | cons i post ih =>
        rw [List.foldl_cons, exec_wait c s (Or.inl hs) (hpost i List.mem_cons_self)]
        exact ih fun j hj => hpost j (List.mem_cons_of_mem i hj)
  rcases frame_spec c bus command reg high low { s with controller := controller } hlow hframe
    hfifo with ⟨hcontroller, hchip, hreceived⟩
  have hs' : s' = (spiSetCsn 0xff).foldl (Wired.exec c)
      ((frameAccesses bus command reg high low).foldl (Wired.exec c)
        { s with controller := controller }) := by
    simp only [s', List.foldl_append]
    rw [hpre, hwaits _ (by rw [hcontroller]; exact hlow)]
  refine ⟨?_, ?_, ?_⟩
  · rw [hs']
    exact idle_release c _
  · rw [hs', foldl_spiSetCsn]
    exact hchip
  · rw [hs', foldl_spiSetCsn]
    exact hreceived

/-- The two bytes of a word. -/
theorem wordOf_bytes (value : UInt16) :
    wordOf (value >>> 8).toUInt8 (value &&& 0xFF).toUInt8 = value :=
  Recorder.readRegister_eq value

/-- A register read ends the use, and its value is that of the register. -/
theorem foldl_readRegister {s : Wired σ} (h : s.Ready) (hnone : s.received = []) (reg : UInt8) :
    let s' := (readRegister reg).foldl (Wired.exec c) s
    s'.Ready ∧ s'.chip = (c.read reg s.chip).2 ∧
      (Operation.readRegister reg).value s'.received = some (c.read reg s.chip).1 := by
  intro s'
  obtain ⟨controller, hon, hlow⟩ := foldl_controlModeOn c h.frame
  have hpre : ([Access.awaitDataRequest] ++ controlModeOn).foldl (Wired.exec c) s =
      { s with controller := controller } := by
    rw [List.foldl_append, List.foldl_cons, exec_wait c s (Or.inr h.frame) (Or.inr rfl)]
    exact hon
  obtain ⟨hidle, hchip, e₁, e₂, e₃, e₄, hreceived, hvalue⟩ :=
    frame_use c .sci VS_READ_COMMAND reg 0xFF 0xFF _ [] hpre hlow h.frame h.fifo
      (fun _ hi => absurd hi List.not_mem_nil)
  have haccesses : readRegister reg = [.awaitDataRequest] ++ controlModeOn ++
      frameAccesses .sci VS_READ_COMMAND reg 0xFF 0xFF ++ [] ++ spiSetCsn 0xff := rfl
  rw [← haccesses] at hidle hchip hreceived
  refine ⟨hidle.ready c h.fifo rfl, hchip, ?_⟩
  obtain ⟨rfl, rfl⟩ := hvalue rfl
  rw [hnone] at hreceived
  simp only [s', hreceived, Operation.value]
  exact congrArg some (wordOf_bytes _)

/-- A register write ends the use. -/
theorem foldl_writeRegister {s : Wired σ} (h : s.Ready) (reg : UInt8) (value : UInt16) :
    let s' := (writeRegister reg value).foldl (Wired.exec c) s
    s'.Ready ∧ s'.chip = c.write reg value s.chip := by
  intro s'
  obtain ⟨controller, hon, hlow⟩ := foldl_controlModeOn c h.frame
  have hpre : (controlModeOn ++ [Access.delay]).foldl (Wired.exec c) s =
      { s with controller := controller } := by
    rw [List.foldl_append, hon]
    exact exec_wait c { s with controller := controller } (Or.inl hlow) (Or.inl rfl)
  obtain ⟨hidle, hchip, -⟩ :=
    frame_use c .sci VS_WRITE_COMMAND reg (value >>> 8).toUInt8 (value &&& 0xff).toUInt8
      (controlModeOn ++ [.delay]) [.delay, .awaitDataRequest] hpre hlow h.frame h.fifo (by simp)
  have haccesses : writeRegister reg value = controlModeOn ++ [.delay] ++
      frameAccesses .sci VS_WRITE_COMMAND reg (value >>> 8).toUInt8 (value &&& 0xff).toUInt8 ++
        [.delay, .awaitDataRequest] ++ spiSetCsn 0xff := rfl
  have hother : VS_WRITE_COMMAND ≠ VS_READ_COMMAND := by decide
  rw [← haccesses] at hidle hchip
  refine ⟨hidle.ready c h.fifo rfl, ?_⟩
  rw [hchip, frameEffect, if_neg hother, if_pos rfl, wordOf_bytes]

/-- The start bit of the converter is set. -/
def Started (a : Ads1118) : Prop :=
  a.configRegister.singleStart = 1

/-- A call leaves the converter started. -/
theorem Started.exec {a : Ads1118} (h : Started a) (call : Call) : Started (call.exec a) := by
  cases call with
  | getADCValue inputs =>
      unfold Started Call.exec getADCValue
      split_ifs <;> exact h
  | _ => exact h

/-- With the start bit set, the high byte of the register is no command of the codec. -/
theorem msb_ne_command {bits : Bits} (h : bits.singleStart = 1) :
    UInt8.ofBitVec bits.msb ≠ VS_READ_COMMAND ∧ UInt8.ofBitVec bits.msb ≠ VS_WRITE_COMMAND := by
  have hbit : bits.msb.getLsbD 7 = true := by
    simp only [Bits.msb, BitVec.getLsbD_append, h]
    rfl
  constructor
  · intro hcommand
    rw [show bits.msb = 3#8 from congrArg UInt8.toBitVec hcommand] at hbit
    exact absurd hbit (by decide)
  · intro hcommand
    rw [show bits.msb = 2#8 from congrArg UInt8.toBitVec hcommand] at hbit
    exact absurd hbit (by decide)

/-- One pass of a conversion: the codec is selected and gets a frame, and ignores it. -/
theorem foldl_conversionPass {s : Wired σ} (h : s.Ready) {bits : Bits}
    (hstart : bits.singleStart = 1) :
    let s' := (conversionPass bits).foldl (Wired.exec c) s
    s'.Ready ∧ s'.chip = s.chip := by
  intro s'
  rcases msb_ne_command hstart with ⟨hread, hwrite⟩
  have hpre : (spiSetCsn 0xbf).foldl (Wired.exec c) s =
      { s with controller := { s.controller with softcs := 0xbf } } := by
    rw [foldl_spiSetCsn, h.frame, frameOn_nil, ← h.frame]
  have hlow : xCs ∈ lowLines (0xbf : BitVec 8) := by decide
  obtain ⟨hidle, hchip, -⟩ :=
    frame_use c .ads (UInt8.ofBitVec bits.msb) (UInt8.ofBitVec bits.lsb)
      (UInt8.ofBitVec bits.msb) (UInt8.ofBitVec bits.lsb) _ [] hpre hlow h.frame
      h.fifo (fun _ hi => absurd hi List.not_mem_nil)
  rw [frameEffect, if_neg hread, if_neg hwrite] at hchip
  have hwait : ∀ (n : Nat) (s : Wired σ), s.Idle →
      (List.replicate n Access.delay).foldl (Wired.exec c) s = s := by
    intro n s hs
    induction n with
    | zero => rfl
    | succ n ih =>
        rw [List.replicate_succ, List.foldl_cons, exec_wait c s (Or.inr hs.frame) (Or.inl rfl)]
        exact ih
  have hs' : s' = (spiSetCsn 0xbf ++ frameAccesses .ads (UInt8.ofBitVec bits.msb)
      (UInt8.ofBitVec bits.lsb) (UInt8.ofBitVec bits.msb) (UInt8.ofBitVec bits.lsb) ++ [] ++
        spiSetCsn 0xff).foldl (Wired.exec c) s := by
    rw [← hwait (CONV_TIME.get bits.rate.toFin) _ hidle, ← List.foldl_append]
    rfl
  rw [hs']
  exact ⟨hidle.ready c h.fifo rfl, hchip⟩

/-- A conversion does nothing to the codec. -/
theorem foldl_getADCValue {s : Wired σ} (h : s.Ready) {a : Ads1118} (hstart : Started a)
    (inputs : UInt8) :
    let s' := (getADCValue inputs a).1.foldl (Wired.exec c) s
    s'.Ready ∧ s'.chip = s.chip := by
  have hpasses : ∀ (n : Nat) (bits : Bits) (s : Wired σ), bits.singleStart = 1 → s.Ready →
      ((List.replicate n (conversionPass bits)).flatten.foldl (Wired.exec c) s).Ready ∧
        ((List.replicate n (conversionPass bits)).flatten.foldl (Wired.exec c) s).chip =
          s.chip := by
    intro n bits s hbits hs
    induction n generalizing s with
    | zero => exact ⟨hs, rfl⟩
    | succ n ih =>
        rcases foldl_conversionPass c hs hbits with ⟨hready, hchip⟩
        rw [List.replicate_succ, List.flatten_cons, List.foldl_append, ← hchip]
        exact ih _ hready
  unfold getADCValue
  split_ifs with hmode
  · exact hpasses _ _ s hstart h
  · exact hpasses _ _ s hstart h

/-! ## Data -/

/-- With only `xDcs` low among its lines, the codec receives the bytes as data. -/
theorem foldl_inTransfer {accesses : List Access} (haccesses : ∀ i ∈ accesses, InTransfer .sdi i)
    {s : Wired σ} (h : s.Idle) (hdcs : xDcs ∈ lowLines s.controller.softcs) :
    let s' := accesses.foldl (Wired.exec c) s
    s'.Idle ∧ s'.chip = c.feed (sentBytes accesses) s.chip := by
  induction accesses generalizing s with
  | nil => exact ⟨h, rfl⟩
  | cons i accesses ih =>
      have hrest := fun j hj => haccesses j (List.mem_cons_of_mem i hj)
      rcases haccesses i List.mem_cons_self with rfl | rfl | rfl | ⟨d, rfl⟩
      · rw [List.foldl_cons, exec_wait c s (Or.inr h.frame) (Or.inr rfl)]
        exact ih hrest h hdcs
      · rw [List.foldl_cons, exec_wait c s (Or.inr h.frame) (Or.inl rfl)]
        exact ih hrest h hdcs
      · obtain ⟨fifo, received, hload, -⟩ := load_eq s
        rw [List.foldl_cons, Wired.exec, hload]
        exact ih hrest (s := { s with fifo := fifo, received := received }) ⟨h.high, h.frame⟩ hdcs
      · have hbyte : s.exec c (.tx .sdi d) =
            { s with chip := c.data d s.chip, fifo := s.fifo ++ [s.echo] } := by
          simp [Wired.exec, Wired.store, wireByte, h.high, hdcs]
        rw [List.foldl_cons, hbyte]
        exact ih hrest (s := { s with chip := c.data d s.chip, fifo := s.fifo ++ [s.echo] })
          ⟨h.high, h.frame⟩ hdcs

/-- Selecting the data port only changes the lines. -/
theorem foldl_dataModeOn {s : Wired σ} (h : s.Idle) :
    ∃ controller, dataModeOn.foldl (Wired.exec c) s = { s with controller := controller } ∧
      xCs ∉ lowLines controller.softcs ∧ xDcs ∈ lowLines controller.softcs := by
  have hne : xCs ≠ xDcs := by decide
  refine ⟨⟨withCs (withCs s.controller.softcs xCs true) xDcs false,
    withCs s.controller.softcs xCs true⟩, ?_, ?_, ?_⟩
  · rw [dataModeOn, List.foldl_append, foldl_spiSetCs c s h.frame, foldl_spiSetCs]
    exact h.frame
  · simp [lowLines_withCs, driveLine, hne]
  · simp [lowLines_withCs, driveLine]

/-- The bytes of two runs follow each other. -/
theorem sentBytes_append (xs ys : List Access) :
    sentBytes (xs ++ ys) = sentBytes xs ++ sentBytes ys :=
  List.filterMap_append

/-- A transfer sends its buffer. -/
theorem sentBytes_sdiSendBuffer (data : List UInt8) : sentBytes (sdiSendBuffer data) = data := by
  have hwrites : ∀ bytes : List UInt8,
      sentBytes (bytes.flatMap (spiWriteForResponse .sdi)) = bytes := by
    intro bytes
    induction bytes with
    | nil => rfl
    | cons d bytes ih =>
        rw [List.flatMap_cons, sentBytes_append, ih]
        rfl
  have hchunks : sentBytes (sendChunks data) = data := by
    induction data using sendChunks.induct with
    | case1 => simp [sendChunks, sentBytes]
    | case2 d data ih =>
        have hsplit := List.take_append_drop VS1003_CHUNK_SIZE (d :: data)
        rw [sendChunks, ← List.singleton_append, sentBytes_append, sentBytes_append, hwrites, ih,
          hsplit]
        rfl
  rw [sdiSendBuffer, sentBytes_append, sentBytes_append, hchunks]
  simp [sentBytes, dataModeOn, dataModeOff, spiSetCs, spiSetCsn]

/-- A transfer that is cut off before its data. -/
theorem foldl_dataModeOn_take {s : Wired σ} (h : s.Idle) {n : Nat} (hn : n < 4) :
    let s' := (dataModeOn.take n).foldl (Wired.exec c) s
    s'.Idle ∧ s'.chip = s.chip ∧ sentBytes (dataModeOn.take n) = [] := by
  have hload : ∀ s : Wired σ, s.Idle → (s.exec c .load).Idle ∧ (s.exec c .load).chip = s.chip :=
    fun s hs => ⟨⟨hs.high, by simp [Wired.exec, hs.frame, frameOn_nil]⟩, rfl⟩
  have hrelease : ((spiSetCs xCs true).foldl (Wired.exec c) s).Idle ∧
      ((spiSetCs xCs true).foldl (Wired.exec c) s).chip = s.chip := by
    rw [foldl_spiSetCs c s h.frame]
    exact ⟨⟨by simp [lowLines_withCs, driveLine], h.frame⟩, rfl⟩
  have hcases : n = 0 ∨ n = 1 ∨ n = 2 ∨ n = 3 := by omega
  rcases hcases with rfl | rfl | rfl | rfl
  · exact ⟨h, rfl, rfl⟩
  · exact ⟨(hload s h).1, (hload s h).2, rfl⟩
  · exact ⟨hrelease.1, hrelease.2, rfl⟩
  · rcases hload _ hrelease.1 with ⟨hidle, hchip⟩
    exact ⟨hidle, hchip.trans hrelease.2, rfl⟩

/-- A transfer, complete or cut off, ends outside a frame, and the codec has received
the bytes that were sent. -/
theorem foldl_sdiCut {s : Wired σ} (h : s.Idle) (data : List UInt8) (n : Nat) :
    let s' := ((sdiSendBuffer data).take n).foldl (Wired.exec c) s
    s'.Idle ∧ s'.chip = c.feed (sentBytes ((sdiSendBuffer data).take n)) s.chip := by
  have hlength : dataModeOn.length = 4 := rfl
  by_cases hn : n < 4
  · have htake : (sdiSendBuffer data).take n = dataModeOn.take n := by
      rw [sdiSendBuffer, List.take_append_of_le_length (by omega)]
    rcases foldl_dataModeOn_take c h hn with ⟨hidle, hchip, hsent⟩
    rw [htake, hsent]
    exact ⟨hidle, hchip⟩
  · obtain ⟨controller, hon, hcs, hdcs⟩ := foldl_dataModeOn c h
    have htake : (sdiSendBuffer data).take n = dataModeOn ++ ((sendChunks data).take (n - 4) ++
        dataModeOff.take (n - 4 - (sendChunks data).length)) := by
      rw [sdiSendBuffer, List.take_append, List.take_append, List.take_of_length_le (by omega)]
      rfl
    have hmem : ∀ i ∈ (sendChunks data).take (n - 4), InTransfer .sdi i := fun i hi =>
      inTransfer_sendChunks data i (List.mem_of_mem_take hi)
    have hselected : Wired.Idle { s with controller := controller } := ⟨hcs, h.frame⟩
    rcases foldl_inTransfer c hmem hselected hdcs with ⟨hidle, hchip⟩
    have hon' : sentBytes dataModeOn = [] := rfl
    rw [htake, List.foldl_append, hon, List.foldl_append, sentBytes_append, sentBytes_append, hon',
      List.nil_append]
    -- the last access, if it is reached, releases the lines
    cases n - 4 - (sendChunks data).length with
    | zero =>
        have hnil : sentBytes [] = [] := rfl
        rw [List.take_zero, List.foldl_nil, hnil, List.append_nil]
        exact ⟨hidle, hchip⟩
    | succ k =>
        have hoff : dataModeOff.take (k + 1) = spiSetCsn 0xff := by
          simp [dataModeOff, spiSetCsn]
        have hnone : sentBytes (spiSetCsn 0xff) = [] := rfl
        rw [hoff, hnone, List.append_nil]
        refine ⟨idle_release c _, ?_⟩
        rw [foldl_spiSetCsn]
        exact hchip

/-- A complete transfer loads what comes back. -/
theorem fill_sdiSendBuffer (data : List UInt8) :
    (sdiSendBuffer data).foldl Access.fill 0 = 0 := by
  have hwrites : ∀ bytes : List UInt8,
      (bytes.flatMap (spiWriteForResponse .sdi)).foldl Access.fill 0 = 0 := by
    intro bytes
    induction bytes with
    | nil => rfl
    | cons d bytes ih =>
        rw [List.flatMap_cons, List.foldl_append]
        exact ih
  have hchunks : (sendChunks data).foldl Access.fill 0 = 0 := by
    induction data using sendChunks.induct with
    | case1 => simp [sendChunks]
    | case2 d data ih =>
        rw [sendChunks, List.foldl_cons, List.foldl_append]
        exact (congrArg (fun k => List.foldl Access.fill k _) (hwrites _)).trans ih
  have hon : dataModeOn.foldl Access.fill 0 = 0 := rfl
  rw [sdiSendBuffer, List.foldl_append, List.foldl_append, hon, hchunks]
  rfl

/-- A buffer reaches the codec whole. -/
theorem foldl_sdiSendBuffer {s : Wired σ} (h : s.Ready) (data : List UInt8) :
    let s' := (sdiSendBuffer data).foldl (Wired.exec c) s
    s'.Ready ∧ s'.chip = c.feed data s.chip := by
  have hall := foldl_sdiCut c h.toIdle data (sdiSendBuffer data).length
  rw [List.take_length, sentBytes_sdiSendBuffer] at hall
  exact ⟨hall.1.ready c h.fifo (fill_sdiSendBuffer data), hall.2⟩

/-! ## Whole runs -/

/-- Between two uses, with the start bit of the converter set. -/
structure Board.Idle (b : Board σ) : Prop where
  idle : b.wired.Idle
  started : Started b.adc

/-- The same, with nothing left in the receive FIFO. -/
structure Board.Ready (b : Board σ) : Prop where
  ready : b.wired.Ready
  started : Started b.adc

/-- A use that begins with an empty receive FIFO does what the driver is for, and leaves
the FIFO empty when it loads every byte that comes back. -/
theorem use_spec {b : Board σ} (hb : b.Ready) (u : Use) :
    (b.use c u).2.Idle ∧ (b.use c u).1 = (c.use b.wired.chip u).1 ∧
      (b.use c u).2.wired.chip = (c.use b.wired.chip u).2 ∧
      (u.Settled → (b.use c u).2.wired.fifo = []) := by
  have hready : Wired.Ready { b.wired with received := [] } :=
    ⟨⟨hb.ready.high, hb.ready.frame⟩, hb.ready.fifo⟩
  cases u with
  | codec op =>
      cases op with
      | readRegister reg =>
          rcases foldl_readRegister c hready rfl reg with ⟨hready', hchip, hvalue⟩
          exact ⟨⟨hready'.toIdle, hb.started⟩, hvalue, hchip, fun _ => hready'.fifo⟩
      | writeRegister reg value =>
          rcases foldl_writeRegister c hready reg value with ⟨hready', hchip⟩
          exact ⟨⟨hready'.toIdle, hb.started⟩, rfl, hchip, fun _ => hready'.fifo⟩
      | sdiSendBuffer data =>
          rcases foldl_sdiSendBuffer c hready data with ⟨hready', hchip⟩
          exact ⟨⟨hready'.toIdle, hb.started⟩, rfl, hchip, fun _ => hready'.fifo⟩
      | sdiCut data n =>
          rcases foldl_sdiCut c hready.toIdle data n with ⟨hidle, hchip⟩
          exact ⟨⟨hidle, hb.started⟩, rfl, hchip, fun hu => (hidle.ready c hready.fifo hu).fifo⟩
  | adc call =>
      have hstarted := hb.started.exec call
      cases call with
      | getADCValue inputs =>
          rcases foldl_getADCValue c hready hb.started inputs with ⟨hready', hchip⟩
          exact ⟨⟨hready'.toIdle, hstarted⟩, rfl, hchip, fun _ => hready'.fifo⟩
      | _ => exact ⟨⟨hready.toIdle, hstarted⟩, rfl, rfl, fun _ => hready.fifo⟩

/-- While no use leaves a byte behind, on the wires every use does what the driver is for. -/
theorem simulates_use :
    SimulatesOn Board.Ready Use.Settled (fun b => b.wired.chip) (Board.use c) c.use := by
  constructor
  · intro b u hb hu
    obtain ⟨hidle, -, -, hfifo⟩ := use_spec c hb u
    exact ⟨⟨hidle.idle, hfifo hu⟩, hidle.started⟩
  · exact fun b u hb _ => (use_spec c hb u).2.1
  · exact fun b u hb _ => (use_spec c hb u).2.2.1

end Accesses

end Spi
end Ls2kMorse
