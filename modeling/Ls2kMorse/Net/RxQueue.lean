import Ls2kMorse.Net.TxQueue

/-!
# The receive descriptors of the network interface

The receive ring is filled with buffers once, by `eth_init`; the DMA writes frames into
the buffers, and the driver takes the descriptor at `RxBusyDesc` back when the DMA has
finished it and fills the one at `RxNextDesc`.  Here the mark of the last descriptor is
kept in the length word, which the driver fills, and not in the status word.

Main results:

- Theorems `RxRing.fill`, `RxRing.clear`, `RxRing.store`: the operations of the ring
  keep its positions and its shape.
- Theorems `setRxQptr_fill`, `setRxQptr_full`, `getRxQptr_clear`, `getRxQptr_none`: what
  the two functions of the driver do to it.
- Theorems `RxRing.setRxQptr`, `RxRing.getRxQptr`: neither disturbs the positions.
- Theorem `fillRxRing_nonempty`: a descriptor with a buffer is not empty.
-/

namespace Ls2kMorse
namespace Net

open Lib Lib.Ring

/-! ## Descriptors -/

/-- The number of receive descriptors. -/
def RECEIVE_DESC_SIZE : Nat := 36

/-- The bytes of the Ethernet header. -/
def ETHERNET_HEADER : Nat := 14

/-- The bytes of the checksum. -/
def ETHERNET_CRC : Nat := 4

/-- The most bytes of a payload. -/
def MAX_ETHERNET_PAYLOAD : Nat := 1500

/-- The bytes of a VLAN tag. -/
def VLAN_TAG : Nat := 4

/-- The length of a receive buffer. -/
def RX_BUF_SIZE : Nat := ETHERNET_HEADER + ETHERNET_CRC + MAX_ETHERNET_PAYLOAD + VLAN_TAG + 1000

/-- Every descriptor whose index is divisible by this number interrupts. -/
def MODULO_INTERRUPT : Nat := 1

/-- No interrupt on completion. -/
def RxDisIntCompl : BitVec 32 := 0x80000000#32

/-- The last descriptor of a ring. -/
def RxDescEndOfRing : BitVec 32 := 0x00008000#32

/-- The second address is that of the next descriptor. -/
def RxDescChain : BitVec 32 := 0x00004000#32

/-- The length of the frame in the status. -/
def DescFrameLengthMask : BitVec 32 := 0x3FFF0000#32

/-- Where the length of the frame begins. -/
def DescFrameLengthShift : Nat := 16

/-- The frame has an error. -/
def DescError : BitVec 32 := 0x00008000#32

/-- The first descriptor of a frame. -/
def DescRxFirst : BitVec 32 := 0x00000200#32

/-- The last descriptor of a frame. -/
def DescRxLast : BitVec 32 := 0x00000100#32

/-- `synopGMAC_rx_desc_init_ring`. -/
def rxDescInitRing (lastRingDesc : Bool) : DmaDesc where
  status := 0
  length := if lastRingDesc then RxDescEndOfRing else 0
  buffer1 := 0
  buffer2 := 0
  data1 := 0
  data2 := 0

/-- `synopGMAC_rx_desc_init_chain`, which keeps the second address. -/
def rxDescInitChain (desc : DmaDesc) : DmaDesc :=
  { desc with status := 0, length := RxDescChain, buffer1 := 0, data1 := 0 }

/-- `synopGMAC_is_rx_desc_chained`. -/
def isRxDescChained (desc : DmaDesc) : Bool :=
  desc.length &&& RxDescChain == RxDescChain

/-- `synopGMAC_is_rx_desc_valid`: no error, and the whole frame in this descriptor. -/
def isRxDescValid (status : BitVec 32) : Bool :=
  status &&& DescError == 0 && status &&& DescRxFirst == DescRxFirst &&
    status &&& DescRxLast == DescRxLast

/-- `synopGMAC_get_rx_desc_frame_length`. -/
def getRxDescFrameLength (status : BitVec 32) : BitVec 32 :=
  (status &&& DescFrameLengthMask) >>> DescFrameLengthShift

/-! ## The device structure -/

/-- The receive part of `synopGMACdevice`, with the memory its pointers go to. -/
structure RxDevice where
  rxDesc : Nat
  rxNext : Nat
  rxBusy : Nat
  rxNextDesc : Nat
  rxBusyDesc : Nat
  busyRxDesc : Nat
  rxDescCount : Nat
  mem : Nat → DmaDesc

/-- The receive part of a device structure that has been cleared. -/
def RxDevice.zeroed (mem : Nat → DmaDesc) : RxDevice where
  rxDesc := 0
  rxNext := 0
  rxBusy := 0
  rxNextDesc := 0
  rxBusyDesc := 0
  busyRxDesc := 0
  rxDescCount := 0
  mem := mem

/-- `synopGMAC_is_last_rx_desc`: by its bit, or because it points back to the first
one. -/
def isLastRxDesc (gmacdev : RxDevice) (desc : DmaDesc) : Bool :=
  desc.length &&& RxDescEndOfRing == RxDescEndOfRing || gmacdev.rxDesc == desc.data2

/-- `synopGMAC_setup_rx_desc_queue`, with the address that the allocation of the
descriptors returns.  The mode argument is not used. -/
def setupRxDescQueue (gmacdev : RxDevice) (firstDesc noOfDesc : Nat) : Int × RxDevice :=
  if firstDesc = 0 then (-ESYNOPGMACNOMEM, { gmacdev with rxDescCount := 0 })
  else
    (0,
      { rxDesc := firstDesc
        rxNext := 0
        rxBusy := 0
        rxNextDesc := firstDesc
        rxBusyDesc := firstDesc
        busyRxDesc := 0
        rxDescCount := noOfDesc
        mem := (List.range noOfDesc).foldl
          (fun mem i => Function.update mem (firstDesc + sizeofDmaDesc * i)
            (rxDescInitRing (i == noOfDesc - 1))) gmacdev.mem })

/-- The interrupt is switched off for all but every `MODULO_INTERRUPT`-th descriptor. -/
def rxInterruptBit (rxnext : Nat) : BitVec 32 :=
  if rxnext % MODULO_INTERRUPT ≠ 0 then RxDisIntCompl else 0

/-- A descriptor of a chain with a buffer, given to the DMA. -/
def fillRxChain (desc : DmaDesc) (rxnext : Nat) (buffer1 length1 : BitVec 32) (data1 : Nat) :
    DmaDesc where
  status := DescOwnByDma
  length := desc.length ||| ((length1 <<< DescSize1Shift) &&& DescSize1Mask) |||
    rxInterruptBit rxnext
  buffer1 := buffer1
  buffer2 := desc.buffer2
  data1 := data1
  data2 := desc.data2

/-- A descriptor of a ring with a buffer, given to the DMA. -/
def fillRxRing (desc : DmaDesc) (rxnext : Nat) (buffer1 length1 : BitVec 32) (data1 : Nat)
    (buffer2 length2 : BitVec 32) (data2 : Nat) : DmaDesc where
  status := DescOwnByDma
  length := desc.length ||| (((length1 <<< DescSize1Shift) &&& DescSize1Mask) |||
    ((length2 <<< DescSize2Shift) &&& DescSize2Mask)) ||| rxInterruptBit rxnext
  buffer1 := buffer1
  buffer2 := buffer2
  data1 := data1
  data2 := data2

/-- `synopGMAC_set_rx_qptr`. -/
def setRxQptr (gmacdev : RxDevice) (buffer1 length1 : BitVec 32) (data1 : Nat)
    (buffer2 length2 : BitVec 32) (data2 : Nat) : Int × RxDevice :=
  let rxnext := gmacdev.rxNext
  let rxdesc := gmacdev.rxNextDesc
  let desc := gmacdev.mem rxdesc
  if !isDescEmpty desc then (-1, gmacdev)
  else
    let busyRxDesc := u32 (gmacdev.busyRxDesc + 1)
    if isRxDescChained desc then
      let desc := fillRxChain desc rxnext buffer1 length1 data1
      (rxnext,
        { gmacdev with
          busyRxDesc := busyRxDesc
          mem := Function.update gmacdev.mem rxdesc desc
          rxNext := if isLastRxDesc gmacdev desc then 0 else u32 (rxnext + 1)
          rxNextDesc := desc.data2 })
    else
      let desc := fillRxRing desc rxnext buffer1 length1 data1 buffer2 length2 data2
      (rxnext,
        { gmacdev with
          busyRxDesc := busyRxDesc
          mem := Function.update gmacdev.mem rxdesc desc
          rxNext := if isLastRxDesc gmacdev desc then 0 else u32 (rxnext + 1)
          rxNextDesc :=
            if isLastRxDesc gmacdev desc then gmacdev.rxDesc else rxdesc + sizeofDmaDesc })

/-- `synopGMAC_get_rx_qptr`; `none` stands for the result -1. -/
def getRxQptr (gmacdev : RxDevice) : Option Completed × RxDevice :=
  let rxnext := gmacdev.rxBusy
  let rxdesc := gmacdev.rxBusyDesc
  let desc := gmacdev.mem rxdesc
  if isDescOwnedByDma desc then (none, gmacdev)
  else if isDescEmpty desc then (none, gmacdev)
  else
    let busyRxDesc := u32 (gmacdev.busyRxDesc + 4294967295)
    let completed :=
      { index := rxnext
        status := desc.status
        buffer1 := desc.buffer1
        length1 := (desc.length &&& DescSize1Mask) >>> DescSize1Shift
        data1 := desc.data1
        buffer2 := desc.buffer2
        length2 := (desc.length &&& DescSize2Mask) >>> DescSize2Shift
        data2 := desc.data2 }
    let rxBusy := if isLastRxDesc gmacdev desc then 0 else u32 (rxnext + 1)
    if isRxDescChained desc then
      (some completed,
        { gmacdev with
          busyRxDesc := busyRxDesc
          rxBusy := rxBusy
          rxBusyDesc := desc.data2
          mem := Function.update gmacdev.mem rxdesc (rxDescInitChain desc) })
    else
      (some completed,
        { gmacdev with
          busyRxDesc := busyRxDesc
          rxBusy := rxBusy
          rxBusyDesc :=
            if isLastRxDesc gmacdev desc then gmacdev.rxDesc else rxdesc + sizeofDmaDesc
          mem := Function.update gmacdev.mem rxdesc
            (rxDescInitRing (isLastRxDesc gmacdev desc)) })

/-! ## The ring -/

/-- The address of a descriptor of the ring. -/
def RxDevice.descAddr (dev : RxDevice) (i : Nat) : Nat :=
  dev.rxDesc + sizeofDmaDesc * i

/-- A descriptor of the ring. -/
def RxDevice.desc (dev : RxDevice) (i : Nat) : DmaDesc :=
  dev.mem (dev.descAddr i)

/-- A write to a descriptor of the ring changes this one only. -/
theorem RxDevice.desc_update (dev dev' : RxDevice) (i : Nat) (d : DmaDesc)
    (hbase : dev'.rxDesc = dev.rxDesc)
    (hmem : dev'.mem = Function.update dev.mem (dev.descAddr i) d) :
    dev'.desc = Function.update dev.desc i d := by
  unfold desc descAddr
  rw [hmem, hbase]
  exact update_descriptor dev.mem dev.rxDesc i d

/-- A receive descriptor in ring mode, with the mark of the last one in its place. -/
structure RxRingDesc (last : Prop) (d : DmaDesc) : Prop where
  end_of_ring : d.length &&& RxDescEndOfRing = RxDescEndOfRing ↔ last
  not_chained : isRxDescChained d = false
  data2_eq : d.data2 = 0

theorem rxRingDesc_init (last : Bool) : RxRingDesc (last = true) (rxDescInitRing last) where
  end_of_ring := by cases last <;> decide
  not_chained := by cases last <;> decide
  data2_eq := rfl

theorem cleared_rxInit (last : Bool) : Cleared (rxDescInitRing last) := by
  unfold Cleared
  cases last <;> decide

/-- The DMA writes the status only, and the mark is not there. -/
theorem RxRingDesc.of_status {last : Prop} {d : DmaDesc} (h : RxRingDesc last d)
    (status : BitVec 32) : RxRingDesc last { d with status := status } :=
  ⟨h.end_of_ring, h.not_chained, h.data2_eq⟩

theorem rxInterruptBit_eq_zero (rxnext : Nat) : rxInterruptBit rxnext = 0#32 := by
  unfold rxInterruptBit MODULO_INTERRUPT
  rw [Nat.mod_one]
  rfl

/-- The sizes are kept apart from the mark. -/
theorem fillRxRing_length_and (d : DmaDesc) (rxnext : Nat) (buffer1 length1 : BitVec 32)
    (data1 : Nat) (buffer2 length2 : BitVec 32) (data2 : Nat) {mask : BitVec 32}
    (hmask₁ : DescSize1Mask &&& mask = 0#32) (hmask₂ : DescSize2Mask &&& mask = 0#32) :
    (fillRxRing d rxnext buffer1 length1 data1 buffer2 length2 data2).length &&& mask =
      d.length &&& mask := by
  show (d.length ||| (_ ||| _) ||| rxInterruptBit rxnext) &&& mask = d.length &&& mask
  rw [rxInterruptBit_eq_zero, BitVec.or_zero, BitVec.and_or_distrib_right,
    BitVec.and_or_distrib_right, BitVec.and_assoc, BitVec.and_assoc, hmask₁, hmask₂,
    BitVec.and_zero, BitVec.and_zero, BitVec.or_zero, BitVec.or_zero]

/-- Filling a descriptor keeps the shape. -/
theorem RxRingDesc.fillRxRing {last : Prop} {d : DmaDesc} (h : RxRingDesc last d) (rxnext : Nat)
    (buffer1 length1 : BitVec 32) (data1 : Nat) (buffer2 length2 : BitVec 32) :
    RxRingDesc last (fillRxRing d rxnext buffer1 length1 data1 buffer2 length2 0) where
  end_of_ring := by
    rw [fillRxRing_length_and _ _ _ _ _ _ _ _ (by decide) (by decide)]
    exact h.end_of_ring
  not_chained := by
    have hchained := h.not_chained
    unfold isRxDescChained at hchained ⊢
    rw [fillRxRing_length_and _ _ _ _ _ _ _ _ (by decide) (by decide)]
    exact hchained
  data2_eq := rfl

/-- A buffer of 1 to 8191 bytes makes a descriptor nonempty. -/
theorem fillRxRing_nonempty (d : DmaDesc) (rxnext : Nat) (buffer1 : BitVec 32)
    {length1 : BitVec 32} (hpos : 0 < length1.toNat) (hlt : length1.toNat < 8192) (data1 : Nat)
    (buffer2 length2 : BitVec 32) (data2 : Nat) :
    isDescEmpty (fillRxRing d rxnext buffer1 length1 data1 buffer2 length2 data2) = false := by
  have hlength : (fillRxRing d rxnext buffer1 length1 data1 buffer2 length2 data2).length =
      (fillRing d buffer1 length1 data1 buffer2 length2 data2).length := by
    show d.length ||| (_ ||| _) ||| rxInterruptBit rxnext = d.length ||| (_ ||| _)
    rw [rxInterruptBit_eq_zero, BitVec.or_zero]
  unfold isDescEmpty
  rw [hlength]
  exact fillRing_nonempty d buffer1 hpos hlt data1 buffer2 length2 data2

/-- The driver's view of its ring: the addresses agree with the indices and the descriptors
keep their shape. -/
structure RxRing (dev : RxDevice) : Prop where
  rxDesc_ne : dev.rxDesc ≠ 0
  count_pos : 0 < dev.rxDescCount
  count_lt : dev.rxDescCount < 4294967296
  next_desc : dev.rxNextDesc = dev.descAddr dev.rxNext
  busy_desc : dev.rxBusyDesc = dev.descAddr dev.rxBusy
  next_lt : dev.rxNext < dev.rxDescCount
  busy_lt : dev.rxBusy < dev.rxDescCount
  shape : ∀ i, i < dev.rxDescCount → RxRingDesc (i = dev.rxDescCount - 1) (dev.desc i)

theorem isLastRxDesc_iff {dev : RxDevice} (hbase : dev.rxDesc ≠ 0) {last : Prop} {d : DmaDesc}
    (hd : RxRingDesc last d) : isLastRxDesc dev d = true ↔ last := by
  unfold isLastRxDesc
  rw [hd.data2_eq, Bool.or_eq_true, beq_iff_eq, beq_iff_eq, hd.end_of_ring]
  exact or_iff_left hbase

theorem next_rxPosition {dev : RxDevice} (hbase : dev.rxDesc ≠ 0)
    (hlt : dev.rxDescCount < 4294967296) {i : Nat} (hi : i < dev.rxDescCount) {d : DmaDesc}
    (hd : RxRingDesc (i = dev.rxDescCount - 1) d) :
    (if isLastRxDesc dev d then 0 else u32 (i + 1)) = (i + 1) % dev.rxDescCount ∧
      (if isLastRxDesc dev d then dev.rxDesc else dev.descAddr i + sizeofDmaDesc) =
        dev.descAddr ((i + 1) % dev.rxDescCount) :=
  next_position_of_last hlt hi (isLastRxDesc_iff hbase hd)

/-- After the set-up every descriptor is empty. -/
theorem setupRxDescQueue_desc (gmacdev : RxDevice) {firstDesc n : Nat} (hbase : firstDesc ≠ 0)
    {i : Nat} (hi : i < n) : (setupRxDescQueue gmacdev firstDesc n).2.desc i =
      rxDescInitRing (i == n - 1) := by
  unfold setupRxDescQueue
  rw [if_neg hbase]
  exact foldl_update_desc firstDesc n (fun i => rxDescInitRing (i == n - 1)) gmacdev.mem hi

theorem setupRxDescQueue_ring (gmacdev : RxDevice) {firstDesc n : Nat} (hbase : firstDesc ≠ 0)
    (hpos : 0 < n) (hlt : n < 4294967296) :
    RxRing (setupRxDescQueue gmacdev firstDesc n).2 := by
  have hdesc := fun i (hi : i < n) => setupRxDescQueue_desc gmacdev hbase hi
  have hdev : (setupRxDescQueue gmacdev firstDesc n).2 =
      { rxDesc := firstDesc, rxNext := 0, rxBusy := 0, rxNextDesc := firstDesc,
        rxBusyDesc := firstDesc, busyRxDesc := 0, rxDescCount := n,
        mem := (setupRxDescQueue gmacdev firstDesc n).2.mem } := by
    unfold setupRxDescQueue
    rw [if_neg hbase]
  generalize (setupRxDescQueue gmacdev firstDesc n).2 = dev at hdesc hdev
  rw [hdev] at hdesc ⊢
  refine ⟨hbase, hpos, hlt, rfl, rfl, hpos, hpos, ?_⟩
  intro i hi
  have hshape := rxRingDesc_init (i == n - 1)
  rw [beq_iff_eq] at hshape
  rw [hdesc i hi]
  exact hshape

/-! ## Operations of the ring -/

/-- The descriptor at `rxNext` becomes `d` and counts as filled. -/
def RxDevice.fill (dev : RxDevice) (d : DmaDesc) : RxDevice :=
  { dev with
    busyRxDesc := u32 (dev.busyRxDesc + 1)
    mem := Function.update dev.mem (dev.descAddr dev.rxNext) d
    rxNext := (dev.rxNext + 1) % dev.rxDescCount
    rxNextDesc := dev.descAddr ((dev.rxNext + 1) % dev.rxDescCount) }

/-- The descriptor at `rxBusy` becomes `d` and counts as filled no more. -/
def RxDevice.clear (dev : RxDevice) (d : DmaDesc) : RxDevice :=
  { dev with
    busyRxDesc := u32 (dev.busyRxDesc + 4294967295)
    mem := Function.update dev.mem (dev.descAddr dev.rxBusy) d
    rxBusy := (dev.rxBusy + 1) % dev.rxDescCount
    rxBusyDesc := dev.descAddr ((dev.rxBusy + 1) % dev.rxDescCount) }

/-- A descriptor of the ring becomes `d`. -/
def RxDevice.store (dev : RxDevice) (i : Nat) (d : DmaDesc) : RxDevice :=
  { dev with mem := Function.update dev.mem (dev.descAddr i) d }

section Ring

variable {dev : RxDevice} {d : DmaDesc}

theorem RxDevice.desc_fill : (dev.fill d).desc = Function.update dev.desc dev.rxNext d :=
  dev.desc_update _ dev.rxNext d rfl rfl

theorem RxDevice.desc_clear : (dev.clear d).desc = Function.update dev.desc dev.rxBusy d :=
  dev.desc_update _ dev.rxBusy d rfl rfl

theorem RxDevice.desc_store (i : Nat) : (dev.store i d).desc = Function.update dev.desc i d :=
  dev.desc_update _ i d rfl rfl

/-- A write of a descriptor of the right shape keeps the shape of the ring. -/
theorem RxRing.shape_update (h : RxRing dev) {i : Nat}
    (hd : RxRingDesc (i = dev.rxDescCount - 1) d) {k : Nat} (hk : k < dev.rxDescCount) :
    RxRingDesc (k = dev.rxDescCount - 1) (Function.update dev.desc i d k) := by
  by_cases hki : k = i
  · rw [hki, Function.update_self]
    exact hd
  · rw [Function.update_of_ne hki]
    exact h.shape k hk

theorem RxRing.fill (h : RxRing dev) (hd : RxRingDesc (dev.rxNext = dev.rxDescCount - 1) d) :
    RxRing (dev.fill d) := by
  refine ⟨h.rxDesc_ne, h.count_pos, h.count_lt, rfl, h.busy_desc, Nat.mod_lt _ h.count_pos,
    h.busy_lt, ?_⟩
  intro i hi
  rw [RxDevice.desc_fill]
  exact h.shape_update hd hi

theorem RxRing.clear (h : RxRing dev) (hd : RxRingDesc (dev.rxBusy = dev.rxDescCount - 1) d) :
    RxRing (dev.clear d) := by
  refine ⟨h.rxDesc_ne, h.count_pos, h.count_lt, h.next_desc, rfl, h.next_lt,
    Nat.mod_lt _ h.count_pos, ?_⟩
  intro i hi
  rw [RxDevice.desc_clear]
  exact h.shape_update hd hi

theorem RxRing.store (h : RxRing dev) {i : Nat} (hd : RxRingDesc (i = dev.rxDescCount - 1) d) :
    RxRing (dev.store i d) := by
  refine ⟨h.rxDesc_ne, h.count_pos, h.count_lt, h.next_desc, h.busy_desc, h.next_lt, h.busy_lt, ?_⟩
  intro k hk
  rw [RxDevice.desc_store]
  exact h.shape_update hd hk

/-! ## Filling and taking back -/

theorem RxRing.next_desc_eq (h : RxRing dev) : dev.mem dev.rxNextDesc = dev.desc dev.rxNext := by
  rw [h.next_desc]
  rfl

theorem RxRing.busy_desc_eq (h : RxRing dev) : dev.mem dev.rxBusyDesc = dev.desc dev.rxBusy := by
  rw [h.busy_desc]
  rfl

/-- Without an empty descriptor nothing happens. -/
theorem setRxQptr_full (hfull : isDescEmpty (dev.mem dev.rxNextDesc) = false)
    (buffer1 length1 : BitVec 32) (data1 : Nat) (buffer2 length2 : BitVec 32) (data2 : Nat) :
    setRxQptr dev buffer1 length1 data1 buffer2 length2 data2 = (-1, dev) := by
  simp [setRxQptr, hfull]

/-- An empty descriptor is filled with the buffer. -/
theorem setRxQptr_fill (h : RxRing dev) (hempty : isDescEmpty (dev.desc dev.rxNext) = true)
    (buffer1 length1 : BitVec 32) (data1 : Nat) (buffer2 length2 : BitVec 32) :
    setRxQptr dev buffer1 length1 data1 buffer2 length2 0 = ((dev.rxNext : Int),
      dev.fill (fillRxRing (dev.desc dev.rxNext) dev.rxNext buffer1 length1 data1 buffer2
        length2 0)) := by
  have hshape := h.shape dev.rxNext h.next_lt
  have hmem : dev.mem (dev.descAddr dev.rxNext) = dev.desc dev.rxNext := rfl
  have hfill := hshape.fillRxRing dev.rxNext buffer1 length1 data1 buffer2 length2
  rcases next_rxPosition h.rxDesc_ne h.count_lt h.next_lt hfill with ⟨hnext, hnextDesc⟩
  simp only [setRxQptr, RxDevice.fill, h.next_desc, hmem, hempty, hshape.not_chained, hnext,
    hnextDesc, Bool.not_true, Bool.false_eq_true, if_false]

/-- A descriptor that still belongs to the DMA, or an empty one, stays. -/
theorem getRxQptr_none (h : isDescOwnedByDma (dev.mem dev.rxBusyDesc) = true ∨
    isDescEmpty (dev.mem dev.rxBusyDesc) = true) : getRxQptr dev = (none, dev) := by
  unfold getRxQptr
  by_cases howned : isDescOwnedByDma (dev.mem dev.rxBusyDesc) = true
  · simp [howned]
  · simp [howned, h.resolve_left howned]

/-- What `getRxQptr` reads. -/
def RxDevice.completed (dev : RxDevice) : Completed where
  index := dev.rxBusy
  status := (dev.desc dev.rxBusy).status
  buffer1 := (dev.desc dev.rxBusy).buffer1
  length1 := ((dev.desc dev.rxBusy).length &&& DescSize1Mask) >>> DescSize1Shift
  data1 := (dev.desc dev.rxBusy).data1
  buffer2 := (dev.desc dev.rxBusy).buffer2
  length2 := ((dev.desc dev.rxBusy).length &&& DescSize2Mask) >>> DescSize2Shift
  data2 := (dev.desc dev.rxBusy).data2

/-- A descriptor that the DMA has finished is read and cleared. -/
theorem getRxQptr_clear (h : RxRing dev)
    (howned : isDescOwnedByDma (dev.desc dev.rxBusy) = false)
    (hfilled : isDescEmpty (dev.desc dev.rxBusy) = false) :
    getRxQptr dev = (some dev.completed,
      dev.clear (rxDescInitRing (isLastRxDesc dev (dev.desc dev.rxBusy)))) := by
  have hshape := h.shape dev.rxBusy h.busy_lt
  have hmem : dev.mem (dev.descAddr dev.rxBusy) = dev.desc dev.rxBusy := rfl
  rcases next_rxPosition h.rxDesc_ne h.count_lt h.busy_lt hshape with ⟨hnext, hnextDesc⟩
  simp only [getRxQptr, RxDevice.clear, RxDevice.completed, h.busy_desc, hmem, howned, hfilled,
    hshape.not_chained, hnext, hnextDesc, Bool.false_eq_true, if_false]

/-- The descriptor written back has the shape of its place. -/
theorem RxRing.cleared_shape (h : RxRing dev) : RxRingDesc (dev.rxBusy = dev.rxDescCount - 1)
    (rxDescInitRing (isLastRxDesc dev (dev.desc dev.rxBusy))) := by
  have hlast := isLastRxDesc_iff h.rxDesc_ne (h.shape dev.rxBusy h.busy_lt)
  have hshape := rxRingDesc_init (isLastRxDesc dev (dev.desc dev.rxBusy))
  rw [hlast] at hshape
  exact hshape

/-- Neither function of the driver disturbs the positions. -/
theorem RxRing.setRxQptr (h : RxRing dev) (buffer1 length1 : BitVec 32) (data1 : Nat)
    (buffer2 length2 : BitVec 32) :
    RxRing (setRxQptr dev buffer1 length1 data1 buffer2 length2 0).2 := by
  cases hempty : isDescEmpty (dev.desc dev.rxNext) with
  | true =>
      rw [setRxQptr_fill h hempty]
      exact h.fill ((h.shape _ h.next_lt).fillRxRing _ _ _ _ _ _)
  | false =>
      rw [← h.next_desc_eq] at hempty
      rw [setRxQptr_full hempty]
      exact h

theorem RxRing.getRxQptr (h : RxRing dev) : RxRing (getRxQptr dev).2 := by
  by_cases hstay : isDescOwnedByDma (dev.mem dev.rxBusyDesc) = true ∨
      isDescEmpty (dev.mem dev.rxBusyDesc) = true
  · rw [getRxQptr_none hstay]
    exact h
  · rw [not_or, Bool.not_eq_true, Bool.not_eq_true, h.busy_desc_eq] at hstay
    rw [getRxQptr_clear h hstay.1 hstay.2]
    exact h.clear h.cleared_shape

end Ring

end Net
end Ls2kMorse
