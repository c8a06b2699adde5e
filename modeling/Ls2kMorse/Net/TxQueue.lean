import Ls2kMorse.Lib.Bits
import Ls2kMorse.Lib.Ring

/-!
# The transmit descriptors of the network interface

The driver shares a ring of descriptors with the DMA engine: it fills the one at
`TxNextDesc` and sets its ownership bit, and takes back the one at `TxBusyDesc` once
the engine has cleared that bit.  Each position is kept twice, as an index and as
an address, and the number of filled descriptors is counted besides.

Main results:

- Theorems `TxRing.push`, `TxRing.pop`, `TxRing.store`: the operations of the ring keep
  its invariant.
- Theorem `setTxQptr_queue`, `setTxQptr_full`: filling a descriptor appends its
  buffer to those held by the ring; a ring without an empty descriptor is refused.
- Theorem `getTxQptr_take`, `getTxQptr_none`: taking a descriptor back removes the
  first buffer.
- Theorem `dmaWrite_ring`: a write of the engine disturbs neither.
-/

namespace Ls2kMorse
namespace Net

open Lib Lib.Ring

/-! ## Descriptors -/

/-- The number of transmit descriptors. -/
def TRANSMIT_DESC_SIZE : Nat := 36

/-- The error of an allocation that failed. -/
def ESYNOPGMACNOMEM : Int := 1

/-- The descriptor belongs to the DMA. -/
def DescOwnByDma : BitVec 32 := 0x80000000#32

/-- Interrupt on completion. -/
def DescTxIntEnable : BitVec 32 := 0x40000000#32

/-- The last segment of a frame. -/
def DescTxLast : BitVec 32 := 0x20000000#32

/-- The first segment of a frame. -/
def DescTxFirst : BitVec 32 := 0x10000000#32

/-- The last descriptor of a ring. -/
def TxDescEndOfRing : BitVec 32 := 0x00200000#32

/-- The second address is that of the next descriptor. -/
def TxDescChain : BitVec 32 := 0x00100000#32

/-- The length of the second buffer. -/
def DescSize2Mask : BitVec 32 := 0x1FFF0000#32

/-- Where the length of the second buffer begins. -/
def DescSize2Shift : Nat := 16

/-- The length of the first buffer, thirteen bits. -/
def DescSize1Mask : BitVec 32 := 0x00001FFF#32

/-- Where the length of the first buffer begins. -/
def DescSize1Shift : Nat := 0

/-- `DmaDesc`; the last two fields are addresses that only the driver uses. -/
structure DmaDesc where
  status : BitVec 32
  length : BitVec 32
  buffer1 : BitVec 32
  buffer2 : BitVec 32
  data1 : Nat
  data2 : Nat
deriving Repr, DecidableEq

/-- The size of a descriptor in memory. -/
def sizeofDmaDesc : Nat := 32

/-- `synopGMAC_tx_desc_init_ring`. -/
def txDescInitRing (lastRingDesc : Bool) : DmaDesc where
  status := if lastRingDesc then TxDescEndOfRing else 0
  length := 0
  buffer1 := 0
  buffer2 := 0
  data1 := 0
  data2 := 0

/-- `synopGMAC_tx_desc_init_chain`, which keeps the second address. -/
def txDescInitChain (desc : DmaDesc) : DmaDesc :=
  { desc with status := TxDescChain, length := 0, buffer1 := 0, data1 := 0 }

/-- `synopGMAC_is_desc_owned_by_dma`. -/
def isDescOwnedByDma (desc : DmaDesc) : Bool :=
  desc.status &&& DescOwnByDma == DescOwnByDma

/-- `synopGMAC_is_desc_empty`: both buffer lengths are zero. -/
def isDescEmpty (desc : DmaDesc) : Bool :=
  desc.length &&& DescSize1Mask == 0 && desc.length &&& DescSize2Mask == 0

/-- `synopGMAC_is_tx_desc_chained`. -/
def isTxDescChained (desc : DmaDesc) : Bool :=
  desc.status &&& TxDescChain == TxDescChain

/-! ## The device structure -/

/-- The transmit part of `synopGMACdevice`, with the memory its pointers go to. -/
structure Device where
  txDesc : Nat
  txNext : Nat
  txBusy : Nat
  txNextDesc : Nat
  txBusyDesc : Nat
  busyTxDesc : Nat
  txDescCount : Nat
  mem : Nat → DmaDesc

/-- The transmit part of a device structure that has been cleared. -/
def Device.zeroed (mem : Nat → DmaDesc) : Device where
  txDesc := 0
  txNext := 0
  txBusy := 0
  txNextDesc := 0
  txBusyDesc := 0
  busyTxDesc := 0
  txDescCount := 0
  mem := mem

/-- Arithmetic of the type `u32`. -/
def u32 (n : Nat) : Nat :=
  n % 4294967296

/-- `synopGMAC_is_last_tx_desc`: by its bit, or because it points back to the first
one. -/
def isLastTxDesc (gmacdev : Device) (desc : DmaDesc) : Bool :=
  desc.status &&& TxDescEndOfRing == TxDescEndOfRing || gmacdev.txDesc == desc.data2

/-- `synopGMAC_setup_tx_desc_queue`, with the address that the allocation of the
descriptors returns.  The mode argument is not used. -/
def setupTxDescQueue (gmacdev : Device) (firstDesc noOfDesc : Nat) : Int × Device :=
  if firstDesc = 0 then (-ESYNOPGMACNOMEM, { gmacdev with txDescCount := 0 })
  else
    (0,
      { txDesc := firstDesc
        txNext := 0
        txBusy := 0
        txNextDesc := firstDesc
        txBusyDesc := firstDesc
        busyTxDesc := 0
        txDescCount := noOfDesc
        mem := (List.range noOfDesc).foldl
          (fun mem i => Function.update mem (firstDesc + sizeofDmaDesc * i)
            (txDescInitRing (i == noOfDesc - 1))) gmacdev.mem })

/-- A descriptor of a chain with a frame, given to the DMA. -/
def fillChain (desc : DmaDesc) (buffer1 length1 : BitVec 32) (data1 : Nat) : DmaDesc where
  status := desc.status ||| (DescTxFirst ||| DescTxLast ||| DescTxIntEnable) ||| DescOwnByDma
  length := desc.length ||| ((length1 <<< DescSize1Shift) &&& DescSize1Mask)
  buffer1 := buffer1
  buffer2 := desc.buffer2
  data1 := data1
  data2 := desc.data2

/-- A descriptor of a ring with a frame, given to the DMA. -/
def fillRing (desc : DmaDesc) (buffer1 length1 : BitVec 32) (data1 : Nat)
    (buffer2 length2 : BitVec 32) (data2 : Nat) : DmaDesc where
  status := desc.status ||| (DescTxFirst ||| DescTxLast ||| DescTxIntEnable) ||| DescOwnByDma
  length := desc.length ||| (((length1 <<< DescSize1Shift) &&& DescSize1Mask) |||
    ((length2 <<< DescSize2Shift) &&& DescSize2Mask))
  buffer1 := buffer1
  buffer2 := buffer2
  data1 := data1
  data2 := data2

/-- `synopGMAC_set_tx_qptr` without checksum offloading. -/
def setTxQptr (gmacdev : Device) (buffer1 length1 : BitVec 32) (data1 : Nat)
    (buffer2 length2 : BitVec 32) (data2 : Nat) : Int × Device :=
  let txnext := gmacdev.txNext
  let txdesc := gmacdev.txNextDesc
  let desc := gmacdev.mem txdesc
  if !isDescEmpty desc then (-1, gmacdev)
  else
    let busyTxDesc := u32 (gmacdev.busyTxDesc + 1)
    if isTxDescChained desc then
      let desc := fillChain desc buffer1 length1 data1
      (txnext,
        { gmacdev with
          busyTxDesc := busyTxDesc
          mem := Function.update gmacdev.mem txdesc desc
          txNext := if isLastTxDesc gmacdev desc then 0 else u32 (txnext + 1)
          txNextDesc := desc.data2 })
    else
      let desc := fillRing desc buffer1 length1 data1 buffer2 length2 data2
      (txnext,
        { gmacdev with
          busyTxDesc := busyTxDesc
          mem := Function.update gmacdev.mem txdesc desc
          txNext := if isLastTxDesc gmacdev desc then 0 else u32 (txnext + 1)
          txNextDesc :=
            if isLastTxDesc gmacdev desc then gmacdev.txDesc else txdesc + sizeofDmaDesc })

/-- What `synopGMAC_get_tx_qptr` reads out of a descriptor, and its index. -/
structure Completed where
  index : Nat
  status : BitVec 32
  buffer1 : BitVec 32
  length1 : BitVec 32
  data1 : Nat
  buffer2 : BitVec 32
  length2 : BitVec 32
  data2 : Nat
deriving Repr, DecidableEq

/-- `synopGMAC_get_tx_qptr`; `none` stands for the result -1. -/
def getTxQptr (gmacdev : Device) : Option Completed × Device :=
  let txover := gmacdev.txBusy
  let txdesc := gmacdev.txBusyDesc
  let desc := gmacdev.mem txdesc
  if isDescOwnedByDma desc then (none, gmacdev)
  else if isDescEmpty desc then (none, gmacdev)
  else
    let busyTxDesc := u32 (gmacdev.busyTxDesc + 4294967295)
    let completed :=
      { index := txover
        status := desc.status
        buffer1 := desc.buffer1
        length1 := (desc.length &&& DescSize1Mask) >>> DescSize1Shift
        data1 := desc.data1
        buffer2 := desc.buffer2
        length2 := (desc.length &&& DescSize2Mask) >>> DescSize2Shift
        data2 := desc.data2 }
    let txBusy := if isLastTxDesc gmacdev desc then 0 else u32 (txover + 1)
    if isTxDescChained desc then
      (some completed,
        { gmacdev with
          busyTxDesc := busyTxDesc
          txBusy := txBusy
          txBusyDesc := desc.data2
          mem := Function.update gmacdev.mem txdesc (txDescInitChain desc) })
    else
      (some completed,
        { gmacdev with
          busyTxDesc := busyTxDesc
          txBusy := txBusy
          txBusyDesc :=
            if isLastTxDesc gmacdev desc then gmacdev.txDesc else txdesc + sizeofDmaDesc
          mem := Function.update gmacdev.mem txdesc
            (txDescInitRing (isLastTxDesc gmacdev desc)) })

/-- A step of the DMA engine: it writes the status of a descriptor it owns, and
keeps the bits that say where the ring ends. -/
def dmaWrite (gmacdev : Device) (addr : Nat) (status : BitVec 32) : Option Device :=
  let desc := gmacdev.mem addr
  if isDescOwnedByDma desc ∧
      status &&& (TxDescEndOfRing ||| TxDescChain) =
        desc.status &&& (TxDescEndOfRing ||| TxDescChain) then
    some { gmacdev with mem := Function.update gmacdev.mem addr { desc with status := status } }
  else none

/-! ## The ring -/

/-- The address of a descriptor of the ring. -/
def Device.descAddr (dev : Device) (i : Nat) : Nat :=
  dev.txDesc + sizeofDmaDesc * i

/-- A descriptor of the ring. -/
def Device.desc (dev : Device) (i : Nat) : DmaDesc :=
  dev.mem (dev.descAddr i)

/-- A write to one of the descriptors that follow each other in memory changes this one only. -/
theorem update_descriptor (mem : Nat → DmaDesc) (base i : Nat) (d : DmaDesc) :
    (fun i' => Function.update mem (base + sizeofDmaDesc * i) d (base + sizeofDmaDesc * i')) =
      Function.update (fun i' => mem (base + sizeofDmaDesc * i')) i d := by
  funext i'
  by_cases hi : i' = i
  · rw [hi, Function.update_self, Function.update_self]
  · have hne : base + sizeofDmaDesc * i' ≠ base + sizeofDmaDesc * i := by
      unfold sizeofDmaDesc
      omega
    rw [Function.update_of_ne hne, Function.update_of_ne hi]

/-- A write to a descriptor of the ring changes this one only. -/
theorem Device.desc_update (dev dev' : Device) (i : Nat) (d : DmaDesc)
    (hbase : dev'.txDesc = dev.txDesc)
    (hmem : dev'.mem = Function.update dev.mem (dev.descAddr i) d) :
    dev'.desc = Function.update dev.desc i d := by
  unfold desc descAddr
  rw [hmem, hbase]
  exact update_descriptor dev.mem dev.txDesc i d

/-- A descriptor in ring mode, with the mark of the last one in its place. -/
structure RingDesc (last : Prop) (d : DmaDesc) : Prop where
  end_of_ring : d.status &&& TxDescEndOfRing = TxDescEndOfRing ↔ last
  not_chained : isTxDescChained d = false
  data2_eq : d.data2 = 0

/-- A descriptor that the driver may fill. -/
def Cleared (d : DmaDesc) : Prop :=
  isDescEmpty d = true ∧ isDescOwnedByDma d = false

theorem ringDesc_init (last : Bool) : RingDesc (last = true) (txDescInitRing last) where
  end_of_ring := by cases last <;> decide
  not_chained := by cases last <;> decide
  data2_eq := rfl

theorem cleared_init (last : Bool) : Cleared (txDescInitRing last) := by
  unfold Cleared
  cases last <;> decide

/-- A write of the status that keeps the ring bits keeps the shape. -/
theorem RingDesc.of_status {last : Prop} {d : DmaDesc} (h : RingDesc last d) {d' : DmaDesc}
    (hstatus : d'.status &&& (TxDescEndOfRing ||| TxDescChain) =
      d.status &&& (TxDescEndOfRing ||| TxDescChain)) (hdata2 : d'.data2 = 0) :
    RingDesc last d' where
  end_of_ring := by
    have hbit : d'.status &&& TxDescEndOfRing = d.status &&& TxDescEndOfRing :=
      Bits.and_eq_and_of_mask (by decide) hstatus
    rw [hbit]
    exact h.end_of_ring
  not_chained := by
    have hbit : d'.status &&& TxDescChain = d.status &&& TxDescChain :=
      Bits.and_eq_and_of_mask (by decide) hstatus
    have hchained := h.not_chained
    unfold isTxDescChained at hchained ⊢
    rw [hbit]
    exact hchained
  data2_eq := hdata2

/-- Filling a descriptor keeps the shape. -/
theorem RingDesc.fillRing {last : Prop} {d : DmaDesc} (h : RingDesc last d)
    (buffer1 length1 : BitVec 32) (data1 : Nat) (buffer2 length2 : BitVec 32) :
    RingDesc last (fillRing d buffer1 length1 data1 buffer2 length2 0) := by
  apply h.of_status
  · show (d.status ||| _ ||| _) &&& _ = _
    rw [Bits.or_and_of_disjoint (by decide), Bits.or_and_of_disjoint (by decide)]
  · rfl

/-- A frame of 1 to 8191 bytes makes a descriptor nonempty. -/
theorem fillRing_nonempty (d : DmaDesc) (buffer1 : BitVec 32) {length1 : BitVec 32}
    (hpos : 0 < length1.toNat) (hlt : length1.toNat < 8192) (data1 : Nat)
    (buffer2 length2 : BitVec 32) (data2 : Nat) :
    isDescEmpty (fillRing d buffer1 length1 data1 buffer2 length2 data2) = false := by
  have hsize : length1 &&& DescSize1Mask = length1 := by
    apply BitVec.eq_of_toNat_eq
    rw [BitVec.toNat_and]
    have hmask : DescSize1Mask.toNat = 2 ^ 13 - 1 := rfl
    rw [hmask, Nat.and_two_pow_sub_one_eq_mod]
    exact Nat.mod_eq_of_lt hlt
  have hne : length1 ≠ 0#32 := by
    rintro rfl
    exact absurd hpos (by decide)
  have hbit : ¬ (fillRing d buffer1 length1 data1 buffer2 length2 data2).length &&&
      DescSize1Mask = 0#32 := by
    intro hzero
    unfold fillRing DescSize1Shift at hzero
    rw [BitVec.shiftLeft_zero, hsize, BitVec.and_or_distrib_right, BitVec.and_or_distrib_right,
      BitVec.or_eq_zero_iff, BitVec.or_eq_zero_iff, hsize] at hzero
    exact hne hzero.2.1
  unfold isDescEmpty
  simp [hbit]

/-- The driver's view of its ring: the addresses agree with the indices, the filled
descriptors are those from `txBusy` on, and the others are ready to be filled. -/
structure TxRing (dev : Device) : Prop where
  txDesc_ne : dev.txDesc ≠ 0
  count_pos : 0 < dev.txDescCount
  count_lt : dev.txDescCount < 4294967296
  next_desc : dev.txNextDesc = dev.descAddr dev.txNext
  busy_desc : dev.txBusyDesc = dev.descAddr dev.txBusy
  busy_lt : dev.txBusy < dev.txDescCount
  busy_le : dev.busyTxDesc ≤ dev.txDescCount
  next_eq : dev.txNext = slot dev.txDescCount dev.txBusy dev.busyTxDesc
  shape : ∀ i, i < dev.txDescCount → RingDesc (i = dev.txDescCount - 1) (dev.desc i)
  filled : ∀ j, j < dev.busyTxDesc →
    isDescEmpty (dev.desc (slot dev.txDescCount dev.txBusy j)) = false
  cleared : ∀ j, dev.busyTxDesc ≤ j → j < dev.txDescCount →
    Cleared (dev.desc (slot dev.txDescCount dev.txBusy j))

/-- The buffers held by the filled descriptors, in ring order. -/
def held (dev : Device) : List Nat :=
  window (fun i => (dev.desc i).data1) dev.txDescCount dev.txBusy dev.busyTxDesc

theorem TxRing.next_lt {dev : Device} (h : TxRing dev) : dev.txNext < dev.txDescCount := by
  rw [h.next_eq]
  exact slot_lt h.count_pos _ _

/-- What remains of the driver's view when frames of any length are queued: the addresses
agree with the indices and the descriptors keep their shape. -/
structure TxPlaces (dev : Device) : Prop where
  txDesc_ne : dev.txDesc ≠ 0
  count_pos : 0 < dev.txDescCount
  count_lt : dev.txDescCount < 4294967296
  next_desc : dev.txNextDesc = dev.descAddr dev.txNext
  busy_desc : dev.txBusyDesc = dev.descAddr dev.txBusy
  next_lt : dev.txNext < dev.txDescCount
  busy_lt : dev.txBusy < dev.txDescCount
  shape : ∀ i, i < dev.txDescCount → RingDesc (i = dev.txDescCount - 1) (dev.desc i)

theorem TxRing.places {dev : Device} (h : TxRing dev) : TxPlaces dev :=
  ⟨h.txDesc_ne, h.count_pos, h.count_lt, h.next_desc, h.busy_desc, h.next_lt, h.busy_lt, h.shape⟩

theorem isLastTxDesc_iff {dev : Device} (hbase : dev.txDesc ≠ 0) {last : Prop} {d : DmaDesc}
    (hd : RingDesc last d) : isLastTxDesc dev d = true ↔ last := by
  unfold isLastTxDesc
  rw [hd.data2_eq, Bool.or_eq_true, beq_iff_eq, beq_iff_eq, hd.end_of_ring]
  exact or_iff_left hbase

/-- The step to the next index and the step to the next address agree when the last
descriptor is known. -/
theorem next_position_of_last {n base i : Nat} (hn : n < 4294967296) (hi : i < n) {last : Bool}
    (hlast : last = true ↔ i = n - 1) :
    (if last then 0 else u32 (i + 1)) = (i + 1) % n ∧
      (if last then base else base + sizeofDmaDesc * i + sizeofDmaDesc) =
        base + sizeofDmaDesc * ((i + 1) % n) := by
  rw [next_eq hi]
  by_cases hend : i = n - 1
  · rw [if_pos (hlast.mpr hend), if_pos (hlast.mpr hend), if_pos hend]
    exact ⟨rfl, rfl⟩
  · have hnot : ¬ last = true := fun h => hend (hlast.mp h)
    have hu32 : u32 (i + 1) = i + 1 := Nat.mod_eq_of_lt (by omega)
    rw [if_neg hnot, if_neg hnot, if_neg hend, hu32]
    refine ⟨rfl, ?_⟩
    rw [Nat.mul_succ, Nat.add_assoc]

theorem next_position {dev : Device} (hbase : dev.txDesc ≠ 0)
    (hlt : dev.txDescCount < 4294967296) {i : Nat} (hi : i < dev.txDescCount) {d : DmaDesc}
    (hd : RingDesc (i = dev.txDescCount - 1) d) :
    (if isLastTxDesc dev d then 0 else u32 (i + 1)) = (i + 1) % dev.txDescCount ∧
      (if isLastTxDesc dev d then dev.txDesc else dev.descAddr i + sizeofDmaDesc) =
        dev.descAddr ((i + 1) % dev.txDescCount) :=
  next_position_of_last hlt hi (isLastTxDesc_iff hbase hd)

/-! ## Setting up -/

/-- A loop over the descriptors writes each of them. -/
theorem foldl_update_desc (base k : Nat) (f : Nat → DmaDesc) (mem : Nat → DmaDesc) {i : Nat}
    (hi : i < k) :
    (List.range k).foldl (fun mem i => Function.update mem (base + sizeofDmaDesc * i) (f i)) mem
      (base + sizeofDmaDesc * i) = f i := by
  induction k with
  | zero => omega
  | succ k ih =>
      rw [List.range_succ, List.foldl_append, List.foldl_cons, List.foldl_nil]
      by_cases hik : i = k
      · rw [hik, Function.update_self]
      · have hne : base + sizeofDmaDesc * i ≠ base + sizeofDmaDesc * k := by
          unfold sizeofDmaDesc
          omega
        rw [Function.update_of_ne hne]
        exact ih (by omega)

/-- After the set-up the ring is empty. -/
theorem setupTxDescQueue_desc (gmacdev : Device) {firstDesc n : Nat} (hbase : firstDesc ≠ 0)
    {i : Nat} (hi : i < n) : (setupTxDescQueue gmacdev firstDesc n).2.desc i =
      txDescInitRing (i == n - 1) := by
  unfold setupTxDescQueue
  rw [if_neg hbase]
  exact foldl_update_desc firstDesc n (fun i => txDescInitRing (i == n - 1)) gmacdev.mem hi

theorem setupTxDescQueue_ring (gmacdev : Device) {firstDesc n : Nat} (hbase : firstDesc ≠ 0)
    (hpos : 0 < n) (hlt : n < 4294967296) :
    TxRing (setupTxDescQueue gmacdev firstDesc n).2 ∧
      held (setupTxDescQueue gmacdev firstDesc n).2 = [] := by
  have hdesc := fun i (hi : i < n) => setupTxDescQueue_desc gmacdev hbase hi
  have hdev : (setupTxDescQueue gmacdev firstDesc n).2 =
      { txDesc := firstDesc, txNext := 0, txBusy := 0, txNextDesc := firstDesc,
        txBusyDesc := firstDesc, busyTxDesc := 0, txDescCount := n,
        mem := (setupTxDescQueue gmacdev firstDesc n).2.mem } := by
    unfold setupTxDescQueue
    rw [if_neg hbase]
  generalize (setupTxDescQueue gmacdev firstDesc n).2 = dev at hdesc hdev
  refine ⟨?_, ?_⟩
  · rw [hdev] at hdesc ⊢
    refine ⟨hbase, hpos, hlt, rfl, rfl, hpos, Nat.zero_le n, ?_, ?_, ?_, ?_⟩
    · exact (slot_zero hpos).symm
    · intro i hi
      have hshape := ringDesc_init (i == n - 1)
      rw [beq_iff_eq] at hshape
      rw [hdesc i hi]
      exact hshape
    · intro j hj
      exact absurd hj (Nat.not_lt_zero j)
    · intro j _ hj
      rw [hdesc _ (slot_lt hpos 0 j)]
      exact cleared_init _
  · rw [hdev]
    rfl

/-! ## Operations of the ring -/

/-- The descriptor behind the filled ones becomes `d` and is one of them. -/
def Device.push (dev : Device) (d : DmaDesc) : Device :=
  { dev with
    busyTxDesc := dev.busyTxDesc + 1
    mem := Function.update dev.mem (dev.descAddr dev.txNext) d
    txNext := (dev.txNext + 1) % dev.txDescCount
    txNextDesc := dev.descAddr ((dev.txNext + 1) % dev.txDescCount) }

/-- The first filled descriptor becomes `d` and is none of them any more. -/
def Device.pop (dev : Device) (d : DmaDesc) : Device :=
  { dev with
    busyTxDesc := dev.busyTxDesc - 1
    mem := Function.update dev.mem (dev.descAddr dev.txBusy) d
    txBusy := (dev.txBusy + 1) % dev.txDescCount
    txBusyDesc := dev.descAddr ((dev.txBusy + 1) % dev.txDescCount) }

/-- The same as the counter of type `u32` sees it. -/
def Device.fill (dev : Device) (d : DmaDesc) : Device :=
  { dev.push d with busyTxDesc := u32 (dev.busyTxDesc + 1) }

/-- The device after the busy descriptor has been taken back. -/
def Device.clear (dev : Device) (d : DmaDesc) : Device :=
  { dev.pop d with busyTxDesc := u32 (dev.busyTxDesc + 4294967295) }

/-- A descriptor of the ring becomes `d`. -/
def Device.store (dev : Device) (i : Nat) (d : DmaDesc) : Device :=
  { dev with mem := Function.update dev.mem (dev.descAddr i) d }

section Ring

variable {dev : Device} {d : DmaDesc}

theorem Device.desc_push : (dev.push d).desc = Function.update dev.desc dev.txNext d :=
  dev.desc_update _ dev.txNext d rfl rfl

theorem Device.desc_pop : (dev.pop d).desc = Function.update dev.desc dev.txBusy d :=
  dev.desc_update _ dev.txBusy d rfl rfl

theorem Device.desc_store (i : Nat) : (dev.store i d).desc = Function.update dev.desc i d :=
  dev.desc_update _ i d rfl rfl

theorem Device.desc_fill : (dev.fill d).desc = Function.update dev.desc dev.txNext d :=
  dev.desc_update _ dev.txNext d rfl rfl

theorem Device.desc_clear : (dev.clear d).desc = Function.update dev.desc dev.txBusy d :=
  dev.desc_update _ dev.txBusy d rfl rfl

/-- A write of a descriptor of the right shape keeps the shape of the ring. -/
theorem TxPlaces.shape_update (h : TxPlaces dev) {i : Nat}
    (hd : RingDesc (i = dev.txDescCount - 1) d) {k : Nat} (hk : k < dev.txDescCount) :
    RingDesc (k = dev.txDescCount - 1) (Function.update dev.desc i d k) := by
  by_cases hki : k = i
  · rw [hki, Function.update_self]
    exact hd
  · rw [Function.update_of_ne hki]
    exact h.shape k hk

theorem TxPlaces.next_desc_eq (h : TxPlaces dev) :
    dev.mem dev.txNextDesc = dev.desc dev.txNext := by
  rw [h.next_desc]
  rfl

theorem TxPlaces.fill (h : TxPlaces dev) (hd : RingDesc (dev.txNext = dev.txDescCount - 1) d) :
    TxPlaces (dev.fill d) := by
  refine ⟨h.txDesc_ne, h.count_pos, h.count_lt, rfl, h.busy_desc, Nat.mod_lt _ h.count_pos,
    h.busy_lt, ?_⟩
  intro i hi
  rw [Device.desc_fill]
  exact h.shape_update hd hi

theorem TxPlaces.clear (h : TxPlaces dev) (hd : RingDesc (dev.txBusy = dev.txDescCount - 1) d) :
    TxPlaces (dev.clear d) := by
  refine ⟨h.txDesc_ne, h.count_pos, h.count_lt, h.next_desc, rfl, h.next_lt,
    Nat.mod_lt _ h.count_pos, ?_⟩
  intro i hi
  rw [Device.desc_clear]
  exact h.shape_update hd hi

theorem TxPlaces.store (h : TxPlaces dev) {i : Nat} (hd : RingDesc (i = dev.txDescCount - 1) d) :
    TxPlaces (dev.store i d) := by
  refine ⟨h.txDesc_ne, h.count_pos, h.count_lt, h.next_desc, h.busy_desc, h.next_lt, h.busy_lt, ?_⟩
  intro k hk
  rw [Device.desc_store]
  exact h.shape_update hd hk

/-- A fill is seen at the place behind the filled descriptors only. -/
theorem TxRing.update_next (h : TxRing dev) (hroom : dev.busyTxDesc < dev.txDescCount) {j : Nat}
    (hj : j < dev.txDescCount) :
    Function.update dev.desc dev.txNext d (slot dev.txDescCount dev.txBusy j) =
      if j = dev.busyTxDesc then d else dev.desc (slot dev.txDescCount dev.txBusy j) := by
  rw [h.next_eq]
  by_cases hlast : j = dev.busyTxDesc
  · rw [if_pos hlast, hlast, Function.update_self]
  · rw [if_neg hlast]
    apply Function.update_of_ne
    intro heq
    exact hlast (slot_injective h.busy_lt hj hroom heq)

/-- Filling a descriptor keeps the ring. -/
theorem TxRing.push (h : TxRing dev) (hroom : dev.busyTxDesc < dev.txDescCount)
    (hshape : RingDesc (dev.txNext = dev.txDescCount - 1) d) (hfilled : isDescEmpty d = false) :
    TxRing (dev.push d) := by
  refine ⟨h.txDesc_ne, h.count_pos, h.count_lt, rfl, h.busy_desc, h.busy_lt, hroom,
    ?_, ?_, ?_, ?_⟩
  · show (dev.txNext + 1) % dev.txDescCount = _
    rw [h.next_eq]
    exact (slot_succ _ _ _).symm
  · intro i hi
    rw [Device.desc_push]
    exact h.places.shape_update hshape hi
  · intro j hj
    have hj' : j ≤ dev.busyTxDesc := Nat.le_of_lt_succ hj
    rw [Device.desc_push]
    refine (congrArg isDescEmpty (h.update_next hroom (Nat.lt_of_le_of_lt hj' hroom))).trans ?_
    by_cases hlast : j = dev.busyTxDesc
    · rw [if_pos hlast]
      exact hfilled
    · rw [if_neg hlast]
      exact h.filled j (Nat.lt_of_le_of_ne hj' hlast)
  · intro j hge hj
    have hge' : dev.busyTxDesc < j := hge
    have hplace := h.update_next (d := d) hroom hj
    rw [if_neg (Nat.ne_of_gt hge')] at hplace
    rw [Device.desc_push]
    exact hplace.symm ▸ h.cleared j (Nat.le_of_lt hge') hj

/-- The buffer of a descriptor that is filled is held behind the others. -/
theorem held_push (h : TxRing dev) (hroom : dev.busyTxDesc < dev.txDescCount) :
    held (dev.push d) = held dev ++ [d.data1] := by
  have hwindow : held (dev.push d) = window (fun i => ((dev.push d).desc i).data1)
      dev.txDescCount dev.txBusy (dev.busyTxDesc + 1) := rfl
  rw [hwindow, Device.desc_push, window_push (f := fun i => (dev.desc i).data1)]
  · rw [h.update_next hroom hroom, if_pos rfl]
    rfl
  · intro j hj
    rw [h.update_next hroom (Nat.lt_trans hj hroom), if_neg (Nat.ne_of_lt hj)]

/-- Taking a descriptor back is seen at the first place only. -/
theorem TxRing.update_busy (h : TxRing dev) {j : Nat} (hj : j + 1 < dev.txDescCount) :
    Function.update dev.desc dev.txBusy d
        (slot dev.txDescCount ((dev.txBusy + 1) % dev.txDescCount) j) =
      dev.desc (slot dev.txDescCount dev.txBusy (j + 1)) := by
  rw [slot_next]
  apply Function.update_of_ne
  intro heq
  have hzero : j + 1 = 0 :=
    slot_injective h.busy_lt hj h.count_pos (heq.trans (slot_zero h.busy_lt).symm)
  exact Nat.succ_ne_zero j hzero

/-- Taking a descriptor back keeps the ring. -/
theorem TxRing.pop (h : TxRing dev) (hpos : 0 < dev.busyTxDesc)
    (hshape : RingDesc (dev.txBusy = dev.txDescCount - 1) d) (hclear : Cleared d) :
    TxRing (dev.pop d) := by
  have hle := h.busy_le
  refine ⟨h.txDesc_ne, h.count_pos, h.count_lt, h.next_desc, rfl, Nat.mod_lt _ h.count_pos,
    Nat.le_trans (Nat.sub_le _ 1) hle, ?_, ?_, ?_, ?_⟩
  · show dev.txNext = slot dev.txDescCount ((dev.txBusy + 1) % dev.txDescCount)
      (dev.busyTxDesc - 1)
    rw [slot_next, Nat.sub_add_cancel hpos]
    exact h.next_eq
  · intro i hi
    rw [Device.desc_pop]
    exact h.places.shape_update hshape hi
  · intro j hj
    have hj' : j < dev.busyTxDesc - 1 := hj
    rw [Device.desc_pop]
    exact (congrArg isDescEmpty (h.update_busy (by omega))).trans (h.filled (j + 1) (by omega))
  · intro j hge hj
    have hge' : dev.busyTxDesc - 1 ≤ j := hge
    have hj' : j < dev.txDescCount := hj
    rw [Device.desc_pop]
    rcases Nat.lt_or_ge (j + 1) dev.txDescCount with hin | hround
    · exact (h.update_busy hin).symm ▸ h.cleared (j + 1) (by omega) hin
    · -- the last place from the new start on is the old start
      have hback : slot dev.txDescCount ((dev.txBusy + 1) % dev.txDescCount) j = dev.txBusy := by
        have hall : j + 1 = dev.txDescCount := by omega
        rw [slot_next, hall, slot, Nat.add_mod_right]
        exact Nat.mod_eq_of_lt h.busy_lt
      show Cleared (Function.update dev.desc dev.txBusy d
        (slot dev.txDescCount ((dev.txBusy + 1) % dev.txDescCount) j))
      rw [hback, Function.update_self]
      exact hclear

/-- The buffer of the first filled descriptor was held before the others. -/
theorem held_pop (h : TxRing dev) (hpos : 0 < dev.busyTxDesc) :
    held dev = (dev.desc dev.txBusy).data1 :: held (dev.pop d) := by
  have hwindow : held (dev.pop d) = window (fun i => ((dev.pop d).desc i).data1)
      dev.txDescCount ((dev.txBusy + 1) % dev.txDescCount) (dev.busyTxDesc - 1) := rfl
  have hrest : held (dev.pop d) = window (fun i => (dev.desc i).data1)
      dev.txDescCount ((dev.txBusy + 1) % dev.txDescCount) (dev.busyTxDesc - 1) := by
    have hle := h.busy_le
    rw [hwindow, Device.desc_pop]
    apply window_congr
    intro j hj
    rw [h.update_busy (by omega), slot_next]
  have hfirst := window_pop (f := fun i => (dev.desc i).data1) h.busy_lt (dev.busyTxDesc - 1)
  rw [Nat.sub_add_cancel hpos] at hfirst
  rw [hrest]
  exact hfirst

/-- A store that keeps shape, length and buffer of a descriptor that is not one to be
filled keeps the ring. -/
theorem TxRing.store (h : TxRing dev) {i : Nat} (hshape : RingDesc (i = dev.txDescCount - 1) d)
    (hempty : isDescEmpty d = isDescEmpty (dev.desc i)) (hfilled : ¬ Cleared (dev.desc i)) :
    TxRing (dev.store i d) := by
  have hdesc : ∀ k, isDescEmpty ((dev.store i d).desc k) = isDescEmpty (dev.desc k) := by
    intro k
    rw [Device.desc_store]
    by_cases hki : k = i
    · rw [hki, Function.update_self]
      exact hempty
    · rw [Function.update_of_ne hki]
  refine ⟨h.txDesc_ne, h.count_pos, h.count_lt, h.next_desc, h.busy_desc, h.busy_lt, h.busy_le,
    h.next_eq, ?_, ?_, ?_⟩
  · intro k hk
    rw [Device.desc_store]
    exact h.places.shape_update hshape hk
  · intro j hj
    rw [hdesc]
    exact h.filled j hj
  · intro j hge hj
    have hclear := h.cleared j hge hj
    have hki : slot dev.txDescCount dev.txBusy j ≠ i := by
      intro heq
      rw [heq] at hclear
      exact hfilled hclear
    rw [Device.desc_store]
    show Cleared (Function.update dev.desc i d (slot dev.txDescCount dev.txBusy j))
    rw [Function.update_of_ne hki]
    exact hclear

theorem held_store {i : Nat} (hdata : d.data1 = (dev.desc i).data1) :
    held (dev.store i d) = held dev := by
  have hwindow : held (dev.store i d) = window (fun k => ((dev.store i d).desc k).data1)
      dev.txDescCount dev.txBusy dev.busyTxDesc := rfl
  rw [hwindow, Device.desc_store]
  apply window_congr
  intro j _
  by_cases hki : slot dev.txDescCount dev.txBusy j = i
  · rw [hki, Function.update_self]
    exact hdata
  · rw [Function.update_of_ne hki]

/-- A descriptor that the DMA owns is one of the filled ones. -/
theorem TxRing.place_of_owned (h : TxRing dev) {i : Nat} (hi : i < dev.txDescCount)
    (howned : isDescOwnedByDma (dev.desc i) = true) :
    ∃ j, j < dev.busyTxDesc ∧ slot dev.txDescCount dev.txBusy j = i := by
  rcases exists_slot h.busy_lt hi with ⟨j, hj, hslot⟩
  refine ⟨j, ?_, hslot⟩
  by_contra hge
  have hclear := (h.cleared j (Nat.le_of_not_lt hge) hj).2
  rw [hslot, howned] at hclear
  exact Bool.false_ne_true hclear.symm

end Ring

/-! ## Filling and taking back -/

section Queue

variable {dev : Device}

theorem TxRing.next_desc_eq (h : TxRing dev) :
    dev.mem dev.txNextDesc = dev.desc dev.txNext := by
  rw [h.next_desc]
  rfl

theorem TxRing.busy_desc_eq (h : TxRing dev) :
    dev.mem dev.txBusyDesc = dev.desc dev.txBusy := by
  rw [h.busy_desc]
  rfl

/-- The descriptor at `txNextDesc` is empty exactly when the ring is not full. -/
theorem TxRing.next_empty_iff (h : TxRing dev) :
    isDescEmpty (dev.mem dev.txNextDesc) = true ↔ dev.busyTxDesc < dev.txDescCount := by
  rw [h.next_desc_eq, h.next_eq]
  constructor
  · intro hempty
    by_contra hfull
    have hall : dev.busyTxDesc = dev.txDescCount :=
      Nat.le_antisymm h.busy_le (Nat.le_of_not_lt hfull)
    -- a full ring has come round to its first filled descriptor
    have hfirst : slot dev.txDescCount dev.txBusy dev.busyTxDesc =
        slot dev.txDescCount dev.txBusy 0 := by
      unfold slot
      rw [hall, Nat.add_mod_right, Nat.add_zero]
    have hfilled := h.filled 0 (hall ▸ h.count_pos)
    rw [hfirst, hfilled] at hempty
    exact Bool.false_ne_true hempty
  · intro hlt
    exact (h.cleared _ (Nat.le_refl _) hlt).1

/-- A ring with a descriptor at its start that is not empty has filled ones. -/
theorem TxRing.busy_pos (h : TxRing dev) (hfilled : isDescEmpty (dev.mem dev.txBusyDesc) = false) :
    0 < dev.busyTxDesc := by
  by_contra hzero
  have hclear := (h.cleared 0 (Nat.le_of_not_lt hzero) h.count_pos).1
  rw [slot_zero h.busy_lt, ← h.busy_desc_eq, hfilled] at hclear
  exact Bool.false_ne_true hclear

/-- Without an empty descriptor nothing happens. -/
theorem setTxQptr_full (hfull : isDescEmpty (dev.mem dev.txNextDesc) = false)
    (buffer1 length1 : BitVec 32) (data1 : Nat) (buffer2 length2 : BitVec 32) (data2 : Nat) :
    setTxQptr dev buffer1 length1 data1 buffer2 length2 data2 = (-1, dev) := by
  simp [setTxQptr, hfull]

/-- With one the result is its index. -/
theorem setTxQptr_nonneg (hempty : isDescEmpty (dev.mem dev.txNextDesc) = true)
    (buffer1 length1 : BitVec 32) (data1 : Nat) (buffer2 length2 : BitVec 32) (data2 : Nat) :
    0 ≤ (setTxQptr dev buffer1 length1 data1 buffer2 length2 data2).1 := by
  by_cases hchained : isTxDescChained (dev.mem dev.txNextDesc) = true
  · simp [setTxQptr, hempty, hchained]
  · simp [setTxQptr, hempty, hchained]

/-- A write of the DMA empties no descriptor and fills none. -/
theorem dmaWrite_empty {addr : Nat} {status : BitVec 32} {dev' : Device}
    (hstep : dmaWrite dev addr status = some dev') (a : Nat) :
    isDescEmpty (dev'.mem a) = isDescEmpty (dev.mem a) := by
  unfold dmaWrite at hstep
  rw [Option.ite_none_right_eq_some, Option.some.injEq] at hstep
  rw [← hstep.2]
  by_cases ha : a = addr
  · simp only [ha, Function.update_self]
    rfl
  · simp only [Function.update_of_ne ha]

/-- An empty descriptor is filled with the frame. -/
theorem setTxQptr_fill (h : TxPlaces dev) (hempty : isDescEmpty (dev.mem dev.txNextDesc) = true)
    (buffer1 length1 : BitVec 32) (data1 : Nat) (buffer2 length2 : BitVec 32) :
    setTxQptr dev buffer1 length1 data1 buffer2 length2 0 = ((dev.txNext : Int),
      dev.fill (fillRing (dev.desc dev.txNext) buffer1 length1 data1 buffer2 length2 0)) := by
  have hshape := h.shape dev.txNext h.next_lt
  have hmem : dev.mem (dev.descAddr dev.txNext) = dev.desc dev.txNext := rfl
  have hfill := hshape.fillRing buffer1 length1 data1 buffer2 length2
  rcases next_position h.txDesc_ne h.count_lt h.next_lt hfill with ⟨hnext, hnextDesc⟩
  rw [h.next_desc, hmem] at hempty
  simp only [setTxQptr, Device.fill, Device.push, h.next_desc, hmem, hempty, hshape.not_chained,
    hnext, hnextDesc, Bool.not_true, Bool.false_eq_true, if_false]

theorem setTxQptr_push (h : TxRing dev) (hempty : isDescEmpty (dev.mem dev.txNextDesc) = true)
    (buffer1 length1 : BitVec 32) (data1 : Nat) (buffer2 length2 : BitVec 32) :
    setTxQptr dev buffer1 length1 data1 buffer2 length2 0 = ((dev.txNext : Int),
      dev.push (fillRing (dev.desc dev.txNext) buffer1 length1 data1 buffer2 length2 0)) := by
  have hroom := h.next_empty_iff.mp hempty
  have hbusy : u32 (dev.busyTxDesc + 1) = dev.busyTxDesc + 1 :=
    Nat.mod_eq_of_lt (Nat.lt_of_le_of_lt hroom h.count_lt)
  rw [setTxQptr_fill h.places hempty, Device.fill, hbusy]
  rfl

/-- The frame of 1 to 8191 bytes is queued: its buffer is held behind the others. -/
theorem setTxQptr_queue (h : TxRing dev) (hempty : isDescEmpty (dev.mem dev.txNextDesc) = true)
    (buffer1 : BitVec 32) {length1 : BitVec 32} (hpos : 0 < length1.toNat)
    (hlt : length1.toNat < 8192) (data1 : Nat) (buffer2 length2 : BitVec 32) :
    ∃ dev', setTxQptr dev buffer1 length1 data1 buffer2 length2 0 = ((dev.txNext : Int), dev') ∧
      dev'.txDescCount = dev.txDescCount ∧ TxRing dev' ∧ held dev' = held dev ++ [data1] := by
  have hroom := h.next_empty_iff.mp hempty
  have hshape := h.shape dev.txNext h.next_lt
  have hfilled := fillRing_nonempty (dev.desc dev.txNext) buffer1 hpos hlt data1 buffer2 length2 0
  exact ⟨_, setTxQptr_push h hempty buffer1 length1 data1 buffer2 length2, rfl,
    h.push hroom (hshape.fillRing buffer1 length1 data1 buffer2 length2) hfilled,
    held_push h hroom⟩

/-- A descriptor that still belongs to the DMA, or an empty one, stays. -/
theorem getTxQptr_none (h : isDescOwnedByDma (dev.mem dev.txBusyDesc) = true ∨
    isDescEmpty (dev.mem dev.txBusyDesc) = true) : getTxQptr dev = (none, dev) := by
  unfold getTxQptr
  by_cases howned : isDescOwnedByDma (dev.mem dev.txBusyDesc) = true
  · simp [howned]
  · simp [howned, h.resolve_left howned]

/-- What `getTxQptr` reads. -/
def Device.completed (dev : Device) : Completed where
  index := dev.txBusy
  status := (dev.desc dev.txBusy).status
  buffer1 := (dev.desc dev.txBusy).buffer1
  length1 := ((dev.desc dev.txBusy).length &&& DescSize1Mask) >>> DescSize1Shift
  data1 := (dev.desc dev.txBusy).data1
  buffer2 := (dev.desc dev.txBusy).buffer2
  length2 := ((dev.desc dev.txBusy).length &&& DescSize2Mask) >>> DescSize2Shift
  data2 := (dev.desc dev.txBusy).data2

/-- A descriptor that the DMA has finished is read and cleared. -/
theorem getTxQptr_clear (h : TxPlaces dev)
    (howned : isDescOwnedByDma (dev.mem dev.txBusyDesc) = false)
    (hfilled : isDescEmpty (dev.mem dev.txBusyDesc) = false) :
    getTxQptr dev = (some dev.completed,
      dev.clear (txDescInitRing (isLastTxDesc dev (dev.desc dev.txBusy)))) := by
  have hshape := h.shape dev.txBusy h.busy_lt
  have hmem : dev.mem (dev.descAddr dev.txBusy) = dev.desc dev.txBusy := rfl
  rcases next_position h.txDesc_ne h.count_lt h.busy_lt hshape with ⟨hnext, hnextDesc⟩
  rw [h.busy_desc, hmem] at howned hfilled
  simp only [getTxQptr, Device.clear, Device.pop, Device.completed, h.busy_desc, hmem, howned,
    hfilled, hshape.not_chained, hnext, hnextDesc, Bool.false_eq_true, if_false]

theorem getTxQptr_pop (h : TxRing dev)
    (howned : isDescOwnedByDma (dev.mem dev.txBusyDesc) = false)
    (hfilled : isDescEmpty (dev.mem dev.txBusyDesc) = false) :
    getTxQptr dev = (some dev.completed,
      dev.pop (txDescInitRing (isLastTxDesc dev (dev.desc dev.txBusy)))) := by
  have hpos := h.busy_pos hfilled
  have hbusy : u32 (dev.busyTxDesc + 4294967295) = dev.busyTxDesc - 1 := by
    have hsum : dev.busyTxDesc + 4294967295 = dev.busyTxDesc - 1 + 4294967296 := by omega
    unfold u32
    rw [hsum, Nat.add_mod_right]
    exact Nat.mod_eq_of_lt (by have hle := h.busy_le; have hlt := h.count_lt; omega)
  rw [getTxQptr_clear h.places howned hfilled, Device.clear, hbusy]
  rfl

/-- Its buffer was the first held. -/
theorem getTxQptr_take (h : TxRing dev)
    (howned : isDescOwnedByDma (dev.mem dev.txBusyDesc) = false)
    (hfilled : isDescEmpty (dev.mem dev.txBusyDesc) = false) :
    ∃ c dev', getTxQptr dev = (some c, dev') ∧ c.data1 = (dev.desc dev.txBusy).data1 ∧
      dev'.txDescCount = dev.txDescCount ∧ TxRing dev' ∧ held dev = c.data1 :: held dev' := by
  have hlast := isLastTxDesc_iff h.txDesc_ne (h.shape dev.txBusy h.busy_lt)
  have hshape := ringDesc_init (isLastTxDesc dev (dev.desc dev.txBusy))
  rw [hlast] at hshape
  exact ⟨_, _, getTxQptr_pop h howned hfilled, rfl, rfl,
    h.pop (h.busy_pos hfilled) hshape (cleared_init _), held_pop h (h.busy_pos hfilled)⟩

/-- A step of the DMA is a store of a status into a descriptor it owns. -/
theorem dmaWrite_store {i : Nat} {status : BitVec 32} {dev' : Device}
    (hstep : dmaWrite dev (dev.descAddr i) status = some dev') :
    isDescOwnedByDma (dev.desc i) = true ∧
      status &&& (TxDescEndOfRing ||| TxDescChain) =
        (dev.desc i).status &&& (TxDescEndOfRing ||| TxDescChain) ∧
      dev' = dev.store i { dev.desc i with status := status } := by
  have hmem : dev.mem (dev.descAddr i) = dev.desc i := rfl
  simp only [dmaWrite, hmem, Option.ite_none_right_eq_some, Option.some.injEq] at hstep
  rcases hstep with ⟨⟨howned, hbits⟩, hdev⟩
  exact ⟨howned, hbits, hdev.symm⟩

/-- It keeps the ring, and the buffers in it. -/
theorem dmaWrite_ring (h : TxRing dev) {i : Nat} (hi : i < dev.txDescCount) {status : BitVec 32}
    {dev' : Device} (hstep : dmaWrite dev (dev.descAddr i) status = some dev') :
    dev'.txDescCount = dev.txDescCount ∧ TxRing dev' ∧ held dev' = held dev := by
  rcases dmaWrite_store hstep with ⟨howned, hbits, hdev⟩
  have hshape : RingDesc (i = dev.txDescCount - 1) { dev.desc i with status := status } :=
    (h.shape i hi).of_status hbits (h.shape i hi).data2_eq
  rw [hdev]
  refine ⟨rfl, h.store hshape rfl ?_, held_store rfl⟩
  -- the DMA does not own a descriptor that the driver may fill
  intro hclear
  exact Bool.false_ne_true (hclear.2.symm.trans howned)

end Queue

end Net
end Ls2kMorse
