import Ls2kMorse.Gpio.Pins
import Ls2kMorse.Lib.Simulation
import Ls2kMorse.Spi.ChipSelect

/-!
# Transfers of the SPI bus driver

`xfer` exchanges the bytes of a message and drives the select line of its device as the
message asks: one of the four lines of the controller, or a pin for the other devices.
What answers a byte is a parameter that sees which lines are low.

Main results:

- Theorem `simulates_request`: the driver on registers and pins behaves as a bus with a
  set of selected devices.
- Theorem `runOutputs_sessions`: sessions reach their own device and no other.
-/

namespace Ls2kMorse
namespace Spi

open Lib Lib.Simulation

/-! ## The driver -/

/-- The registers of the controller that `spi_init` stores. -/
structure Settings where
  spcr : BitVec 8
  spsr : BitVec 8
  sper : BitVec 8
  param : BitVec 8
  param2 : BitVec 8

/-- The controller, the pins and what is connected to the bus. -/
structure Master (σ : Type) where
  settings : Settings
  softcs : BitVec 8
  pins : Gpio.Registers
  dev : σ

/-- Mode bit: the second edge samples. -/
def RT_SPI_CPHA : BitVec 8 := 0x01

/-- Mode bit: the clock rests high. -/
def RT_SPI_CPOL : BitVec 8 := 0x02

/-- `struct rt_spi_message`; the buffers are the memory from their pointers on, and the one
that is received into does not overlap the one that is sent in part. -/
structure SpiMessage where
  sendBuf : Option (Nat → UInt8)
  recvBuf : Bool
  length : UInt64
  csTake : Bool
  csRelease : Bool

/-- `size` and the result of `xfer`: the length is cut to 32 bits. -/
def SpiMessage.size (message : SpiMessage) : UInt32 :=
  message.length.toUInt32

/-- A byte on the wire, the byte that came back, and the devices whose lines are low. -/
structure Exchange where
  selected : Finset (Fin 64)
  sent : UInt8
  received : UInt8
deriving DecidableEq

/-- What answers a byte, by the lines that are low. -/
abbrev Slaves (σ : Type) := Finset (Fin 64) → UInt8 → σ → UInt8 × σ

variable {σ : Type}

/-- `spi_init`: the clock rate and the mode, with every select line high. -/
def spiInit (spreSpr copl cpha : BitVec 8) (s : Master σ) : Master σ :=
  { s with
    settings :=
      { spsr := 0xc0 ||| (spreSpr &&& 0b00000011)
        param := 0x40
        param2 := 0x01
        sper := (spreSpr &&& 0b00001100) >>> 2
        spcr := 0x50#8 ||| copl <<< 3 ||| cpha <<< 2 }
    softcs := 0xff }

/-- `configure`, with the mode of the configuration. -/
def configure (mode : BitVec 8) (s : Master σ) : Master σ :=
  let cpol := if mode &&& RT_SPI_CPOL ≠ 0 then 1 else 0
  let cpha := if mode &&& RT_SPI_CPHA ≠ 0 then 1 else 0
  spiInit 0b1011 cpol cpha s

/-- `spi_set_cs` for a line of the controller or a pin. -/
def setCs (cs : Fin 64) (newStatus : Bool) (s : Master σ) : Master σ :=
  if h : cs.val < 4 then { s with softcs := withCs s.softcs ⟨cs.val, h⟩ newStatus }
  else
    let pins := Gpio.loongsonPinMode cs.val Gpio.PIN_MODE_OUTPUT s.pins
    { s with
      pins := Gpio.loongsonPinWrite Gpio.recorderPort cs.val (if newStatus then 1 else 0) pins }

/-- The devices whose lines are low. -/
def Master.selected (s : Master σ) : Finset (Fin 64) :=
  Finset.univ.filter fun cs =>
    if cs.val < 4 then s.softcs.getLsbD (cs.val + 4) = false
    else s.pins.get (.driven cs) = true ∧ s.pins.get (.level cs) = false

/-- `spi_write_for_response`. -/
def writeForResponse (slaves : Slaves σ) (data : UInt8) (s : Master σ) : Exchange × Master σ :=
  let (val, dev) := slaves s.selected data s.dev
  (⟨s.selected, data, val⟩, { s with dev := dev })

/-- The byte that is sent at a place of a message. -/
def SpiMessage.byte (message : SpiMessage) (i : Nat) : UInt8 :=
  match message.sendBuf with
  | some send => send i
  | none => 0xFF

/-- The `while` loop of `xfer` with a number of bytes left, at the place `i`. -/
def xferLoop (slaves : Slaves σ) (message : SpiMessage) :
    Nat → Nat → Master σ → List Exchange × Master σ
  | 0, _, s => ([], s)
  | size + 1, i, s =>
      let (exchange, s) := writeForResponse slaves (message.byte i) s
      let (rest, s) := xferLoop slaves message size (i + 1) s
      (exchange :: rest, s)

/-- What a call of `xfer` returns, what it stores into the receive buffer, and what was
on the wire. -/
structure Xfer where
  value : UInt32
  stored : List UInt8
  wire : List Exchange
deriving DecidableEq

/-- `xfer`: takes the chip, exchanges the bytes of the message and releases the chip. -/
def xfer (slaves : Slaves σ) (cs : Fin 64) (message : SpiMessage) (s : Master σ) :
    Xfer × Master σ :=
  let s := if message.csTake then setCs cs false s else s
  let (wire, s) := xferLoop slaves message message.size.toNat 0 s
  let s := if message.csRelease then setCs cs true s else s
  (⟨message.size, if message.recvBuf then wire.map Exchange.received else [], wire⟩, s)

/-- A call of the bus driver. -/
inductive Request where
  | configure (mode : BitVec 8)
  | xfer (cs : Fin 64) (message : SpiMessage)

/-- One request of the kernel to the driver. -/
def Master.request (slaves : Slaves σ) (s : Master σ) : Request → Xfer × Master σ
  | .configure mode => (⟨0, [], []⟩, Spi.configure mode s)
  | .xfer cs message => Spi.xfer slaves cs message s

/-! ## A bus with selected devices -/

/-- What the driver is for: a set of selected devices that share the wire. -/
structure SelectBus (σ : Type) where
  selected : Finset (Fin 64)
  dev : σ

/-- The bytes of a message, answered one after the other. -/
def answers (slaves : Slaves σ) (selected : Finset (Fin 64)) :
    List UInt8 → σ → List Exchange × σ
  | [], dev => ([], dev)
  | data :: bytes, dev =>
      let (val, dev) := slaves selected data dev
      let (rest, dev) := answers slaves selected bytes dev
      (⟨selected, data, val⟩ :: rest, dev)

/-- The bytes that a message sends. -/
def SpiMessage.bytes (message : SpiMessage) : List UInt8 :=
  (List.range message.size.toNat).map message.byte

/-- A message selects its device, exchanges its bytes and deselects it. -/
def SelectBus.xfer (slaves : Slaves σ) (cs : Fin 64) (message : SpiMessage) (b : SelectBus σ) :
    Xfer × SelectBus σ :=
  let selected := if message.csTake then insert cs b.selected else b.selected
  let (wire, dev) := answers slaves selected message.bytes b.dev
  (⟨message.size, if message.recvBuf then wire.map Exchange.received else [], wire⟩,
    ⟨if message.csRelease then selected.erase cs else selected, dev⟩)

/-- Configuring deselects the devices on the controller's own lines. -/
def SelectBus.request (slaves : Slaves σ) (b : SelectBus σ) : Request → Xfer × SelectBus σ
  | .configure _ => (⟨0, [], []⟩, { b with selected := b.selected.filter fun cs => 4 ≤ cs.val })
  | .xfer cs message => b.xfer slaves cs message

/-- The bus that a master drives. -/
def Master.bus (s : Master σ) : SelectBus σ :=
  ⟨s.selected, s.dev⟩

/-! ## The driver drives this bus -/

/-- A device is selected when its line or its pin is low. -/
theorem mem_selected (s : Master σ) (cs : Fin 64) :
    cs ∈ s.selected ↔
      if cs.val < 4 then s.softcs.getLsbD (cs.val + 4) = false
      else s.pins.get (.driven cs) = true ∧ s.pins.get (.level cs) = false := by
  simp [Master.selected]

/-- A pin that is made an output and written. -/
theorem get_drivePin (cs cs' : Fin 64) (newStatus : Bool) (pins : Gpio.Registers) :
    let pins' := Gpio.loongsonPinWrite Gpio.recorderPort cs.val (if newStatus then 1 else 0)
      (Gpio.loongsonPinMode cs.val Gpio.PIN_MODE_OUTPUT pins)
    pins'.get (.driven cs') = (if cs = cs' then true else pins.get (.driven cs')) ∧
      pins'.get (.level cs') = if cs = cs' then newStatus else pins.get (.level cs') := by
  have hmode := Gpio.assignsOwn_exec Gpio.recorderPort pins (.mode cs.val Gpio.PIN_MODE_OUTPUT)
  have hwrite := Gpio.assignsOwn_exec Gpio.recorderPort
    (Gpio.loongsonPinMode cs.val Gpio.PIN_MODE_OUTPUT pins)
    (.write cs.val (if newStatus then 1 else 0))
  constructor
  · have hdriven := hwrite (.driven cs')
    rw [Gpio.PinOp.exec] at hdriven
    rw [hdriven]
    have hmode' := hmode (.driven cs')
    rw [Gpio.PinOp.exec] at hmode'
    simp only [Gpio.PinOp.sets, Gpio.lineOfPin_val, Option.getD_none] at hmode' ⊢
    rw [hmode']
    split_ifs <;> rfl
  · have hlevel := hwrite (.level cs')
    rw [Gpio.PinOp.exec] at hlevel
    have hmode' := hmode (.level cs')
    rw [Gpio.PinOp.exec] at hmode'
    rw [hlevel, hmode']
    have hwrites : Gpio.recorderPort.refuses cs.val = false := by
      simp [Gpio.recorderPort, Gpio.Port.refuses]
    simp only [Gpio.PinOp.sets, Gpio.lineOfPin_val, hwrites, and_true]
    by_cases h : cs = cs' <;> cases newStatus <;> simp [h]

/-- Setting a line selects or deselects its device and no other. -/
theorem selected_setCs (cs : Fin 64) (newStatus : Bool) (s : Master σ) :
    (setCs cs newStatus s).selected =
      if newStatus then s.selected.erase cs else insert cs s.selected := by
  ext cs'
  by_cases hline : cs.val < 4
  · have hlines := lowLines_withCs s.softcs ⟨cs.val, hline⟩ newStatus
    rw [setCs, dif_pos hline, mem_selected]
    by_cases hline' : cs'.val < 4
    · have hmem : (withCs s.softcs ⟨cs.val, hline⟩ newStatus).getLsbD (cs'.val + 4) = false ↔
          (⟨cs'.val, hline'⟩ : Fin 4) ∈
            driveLine (lowLines s.softcs) ⟨cs.val, hline⟩ newStatus := by
        rw [← hlines, mem_lowLines]
      rw [if_pos hline', hmem]
      cases newStatus <;> simp [driveLine, mem_selected, mem_lowLines, hline', Fin.ext_iff]
    · have hne : cs' ≠ cs := fun h => hline' (h ▸ hline)
      rw [if_neg hline']
      cases newStatus <;> simp [mem_selected, hline', hne]
  · rw [setCs, dif_neg hline, mem_selected]
    by_cases hline' : cs'.val < 4
    · have hne : cs' ≠ cs := fun h => hline (h ▸ hline')
      rw [if_pos hline']
      cases newStatus <;> simp [mem_selected, hline', hne]
    · rcases get_drivePin cs cs' newStatus s.pins with ⟨hdriven, hlevel⟩
      rw [if_neg hline', hdriven, hlevel]
      by_cases h : cs = cs'
      · cases newStatus <;> simp [h]
      · have hne : cs' ≠ cs := fun h' => h h'.symm
        cases newStatus <;> simp [mem_selected, hline', h, hne]

@[simp]
theorem dev_setCs (cs : Fin 64) (newStatus : Bool) (s : Master σ) :
    (setCs cs newStatus s).dev = s.dev := by
  unfold setCs
  split_ifs <;> rfl

/-- After `spi_init` the lines of the controller are high. -/
theorem selected_spiInit (spreSpr copl cpha : BitVec 8) (s : Master σ) :
    (spiInit spreSpr copl cpha s).selected = s.selected.filter fun cs => 4 ≤ cs.val := by
  ext cs
  rw [Finset.mem_filter, mem_selected, mem_selected]
  by_cases hline : cs.val < 4
  · have hhigh : ∀ line : Fin 4, (0xff#8).getLsbD (line.val + 4) = true := by decide
    have hcs : (spiInit spreSpr copl cpha s).softcs.getLsbD (cs.val + 4) = true :=
      hhigh ⟨cs.val, hline⟩
    have hlt : ¬ 4 ≤ cs.val := by omega
    simp only [hline, if_true, hcs, hlt, and_false]
    exact iff_of_false Bool.noConfusion id
  · have hge : 4 ≤ cs.val := Nat.le_of_not_lt hline
    simp only [hline, if_false, hge, and_true]
    rfl

/-- The loop exchanges the bytes with the selected devices. -/
theorem bus_xferLoop (slaves : Slaves σ) (message : SpiMessage) (size i : Nat) (s : Master σ) :
    (xferLoop slaves message size i s).1 =
        (answers slaves s.selected ((List.range' i size).map message.byte) s.dev).1 ∧
      (xferLoop slaves message size i s).2 =
        { s with
          dev := (answers slaves s.selected ((List.range' i size).map message.byte) s.dev).2 } := by
  induction size generalizing i s with
  | zero => exact ⟨rfl, rfl⟩
  | succ size ih =>
      have hnext := ih (i + 1) (writeForResponse slaves (message.byte i) s).2
      have hselected : (writeForResponse slaves (message.byte i) s).2.selected = s.selected := rfl
      rw [hselected] at hnext
      simp only [xferLoop, List.range'_succ, List.map_cons, answers]
      rw [hnext.1, hnext.2]
      exact ⟨rfl, rfl⟩

/-- On its registers and pins, the driver behaves as a bus with a set of selected
devices. -/
theorem simulates_request (slaves : Slaves σ) :
    Simulates Master.bus (Master.request slaves) (SelectBus.request slaves) := by
  intro s r
  cases r with
  | configure mode =>
      refine ⟨rfl, ?_⟩
      simp only [Master.request, SelectBus.request, Master.bus, configure, selected_spiInit]
      rfl
  | xfer cs message =>
      -- the select line in front of the bytes
      have hselected : (if message.csTake then setCs cs false s else s).selected =
          if message.csTake then insert cs s.selected else s.selected := by
        cases message.csTake <;> simp [selected_setCs]
      have hdev : (if message.csTake then setCs cs false s else s).dev = s.dev := by
        cases message.csTake <;> simp
      have hloop := bus_xferLoop slaves message message.size.toNat 0
        (if message.csTake then setCs cs false s else s)
      rw [hselected, hdev, ← List.range_eq_range'] at hloop
      constructor
      · simp only [Master.request, SelectBus.request, xfer, SelectBus.xfer, Master.bus]
        rw [hloop.1]
        rfl
      · simp only [Master.request, SelectBus.request, xfer, SelectBus.xfer, Master.bus]
        rw [hloop.2]
        -- the select line behind the bytes
        cases message.csRelease with
        | false =>
            simp only [Bool.false_eq_true, if_false]
            congr 1
        | true =>
            simp only [if_true, selected_setCs, dev_setCs]
            congr 1
            exact congrArg (fun selected => selected.erase cs) hselected

/-- Whatever is requested, the driver's results, the bytes on the wire and the devices
that are selected for them are those of the bus. -/
theorem runOutputs_request (slaves : Slaves σ) (s : Master σ) (requests : List Request) :
    (runOutputs (Master.request slaves) s requests).1 =
        (runOutputs (SelectBus.request slaves) s.bus requests).1 ∧
      (runOutputs (Master.request slaves) s requests).2.bus =
        (runOutputs (SelectBus.request slaves) s.bus requests).2 :=
  (simulates_request slaves).run s requests

/-! ## Sessions -/

/-- Messages of which the last one releases the line, and no other. -/
def Closes : List SpiMessage → Prop
  | [] => False
  | [m] => m.csRelease = true
  | m :: ms => m.csRelease = false ∧ Closes ms

/-- Messages for one device: the first one takes the line and the last one releases
it. -/
structure Session where
  cs : Fin 64
  first : SpiMessage
  later : List SpiMessage
  takes : first.csTake = true
  closes : Closes (first :: later)

/-- What is done on the bus: a configuration or a session. -/
inductive Job where
  | configure (mode : BitVec 8)
  | session (session : Session)

/-- The requests that a job is made of. -/
def Job.requests : Job → List Request
  | .configure mode => [.configure mode]
  | .session t => (t.first :: t.later).map (.xfer t.cs)

/-- A request to a device that is alone on the bus. -/
def talk (slaves : Slaves σ) (dev : σ) : Request → Xfer × σ
  | .configure _ => (⟨0, [], []⟩, dev)
  | .xfer cs message =>
      let (wire, dev) := answers slaves {cs} message.bytes dev
      (⟨message.size, if message.recvBuf then wire.map Exchange.received else [], wire⟩, dev)

/-- Messages that follow the first one of a session. -/
theorem runOutputs_closes (slaves : Slaves σ) (cs : Fin 64) {messages : List SpiMessage}
    (hcloses : Closes messages) (dev : σ) :
    (runOutputs (SelectBus.request slaves) ⟨{cs}, dev⟩ (messages.map (.xfer cs))).1 =
        (runOutputs (talk slaves) dev (messages.map (.xfer cs))).1 ∧
      (runOutputs (SelectBus.request slaves) ⟨{cs}, dev⟩ (messages.map (.xfer cs))).2 =
        ⟨∅, (runOutputs (talk slaves) dev (messages.map (.xfer cs))).2⟩ := by
  induction messages generalizing dev with
  | nil => exact hcloses.elim
  | cons m ms ih =>
      have hselected : (if m.csTake then insert cs ({cs} : Finset (Fin 64)) else {cs}) = {cs} := by
        cases m.csTake <;> simp
      have hxfer : SelectBus.request slaves ⟨{cs}, dev⟩ (.xfer cs m) =
          ((talk slaves dev (.xfer cs m)).1,
            ⟨if m.csRelease then ∅ else {cs}, (talk slaves dev (.xfer cs m)).2⟩) := by
        simp only [SelectBus.request, SelectBus.xfer, hselected, talk]
        cases m.csRelease <;> simp
      rw [List.map_cons, runOutputs_cons, runOutputs_cons, hxfer]
      cases ms with
      | nil =>
          have hrelease : m.csRelease = true := hcloses
          simp [hrelease]
      | cons m' ms =>
          have hkeep : m.csRelease = false := hcloses.1
          rcases ih hcloses.2 (talk slaves dev (.xfer cs m)).2 with ⟨houts, hend⟩
          simp only [hkeep, Bool.false_eq_true, if_false, houts, hend]
          exact ⟨trivial, trivial⟩

/-- A job on a bus without selected devices. -/
theorem runOutputs_job (slaves : Slaves σ) (job : Job) (dev : σ) :
    (runOutputs (SelectBus.request slaves) ⟨∅, dev⟩ job.requests).1 =
        (runOutputs (talk slaves) dev job.requests).1 ∧
      (runOutputs (SelectBus.request slaves) ⟨∅, dev⟩ job.requests).2 =
        ⟨∅, (runOutputs (talk slaves) dev job.requests).2⟩ := by
  cases job with
  | configure mode => exact ⟨rfl, rfl⟩
  | session t =>
      -- taking the line, the first message finds its device selected
      have htaken : SelectBus.request slaves ⟨∅, dev⟩ (.xfer t.cs t.first) =
          SelectBus.request slaves ⟨{t.cs}, dev⟩ (.xfer t.cs t.first) := by
        simp [SelectBus.request, SelectBus.xfer, t.takes]
      have hclosed := runOutputs_closes slaves t.cs t.closes dev
      rw [List.map_cons, runOutputs_cons] at hclosed
      rw [Job.requests, List.map_cons, runOutputs_cons, htaken]
      exact hclosed

/-- For every sequence of configurations and sessions, from every state in which no line
is low: the driver exchanges each byte with its device alone selected, in the order of
the messages, returns their sizes, stores what came back, and no line stays low. -/
theorem runOutputs_sessions (slaves : Slaves σ) {s : Master σ} (hs : s.selected = ∅)
    (jobs : List Job) :
    (runOutputs (Master.request slaves) s (jobs.flatMap Job.requests)).1 =
        (runOutputs (talk slaves) s.dev (jobs.flatMap Job.requests)).1 ∧
      (runOutputs (Master.request slaves) s (jobs.flatMap Job.requests)).2.selected = ∅ ∧
      (runOutputs (Master.request slaves) s (jobs.flatMap Job.requests)).2.dev =
        (runOutputs (talk slaves) s.dev (jobs.flatMap Job.requests)).2 := by
  have hbus : ∀ dev, (runOutputs (SelectBus.request slaves) ⟨∅, dev⟩
        (jobs.flatMap Job.requests)).1 =
        (runOutputs (talk slaves) dev (jobs.flatMap Job.requests)).1 ∧
      (runOutputs (SelectBus.request slaves) ⟨∅, dev⟩ (jobs.flatMap Job.requests)).2 =
        ⟨∅, (runOutputs (talk slaves) dev (jobs.flatMap Job.requests)).2⟩ := by
    induction jobs with
    | nil => exact fun dev => ⟨rfl, rfl⟩
    | cons job jobs ih =>
        intro dev
        rcases runOutputs_job slaves job dev with ⟨houts, hend⟩
        rcases ih (runOutputs (talk slaves) dev job.requests).2 with ⟨hrest, hlast⟩
        rw [List.flatMap_cons, runOutputs_append, runOutputs_append, hend, houts, hrest, hlast]
        exact ⟨rfl, rfl⟩
  rcases (simulates_request slaves).run s (jobs.flatMap Job.requests) with ⟨houts, hend⟩
  have hempty : s.bus = ⟨∅, s.dev⟩ := by rw [Master.bus, hs]
  rcases hbus s.dev with ⟨htalk, hlast⟩
  rw [hempty] at houts hend
  rw [houts, htalk]
  rw [hlast] at hend
  exact ⟨rfl, congrArg SelectBus.selected hend, congrArg SelectBus.dev hend⟩

/-- Two messages for the device on pin 9, behind a configuration. -/
theorem runOutputs_sessions_pin :
    (runOutputs (Master.request fun _ data (dev : Nat) => (data + 1, dev + 1))
        ⟨⟨0, 0, 0, 0, 0⟩, 0xff, ⟨0, 0xffffffffffffffff, 0, 0⟩, 0⟩
        ([Job.configure 3, .session
            { cs := 9
              first := ⟨some fun _ => 7, true, 2, true, false⟩
              later := [⟨none, false, 1, false, true⟩]
              takes := rfl
              closes := ⟨rfl, rfl⟩ }].flatMap Job.requests)).2.selected = ∅ :=
  (runOutputs_sessions (fun _ data (dev : Nat) => (data + 1, dev + 1)) (by decide)
    [Job.configure 3, .session
      { cs := 9
        first := ⟨some fun _ => 7, true, 2, true, false⟩
        later := [⟨none, false, 1, false, true⟩]
        takes := rfl
        closes := ⟨rfl, rfl⟩ }]).2.1

end Spi
end Ls2kMorse
