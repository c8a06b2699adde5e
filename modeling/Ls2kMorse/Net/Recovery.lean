import Ls2kMorse.Net.Outcome

/-!
# Recovery from a fatal bus error

When the DMA reports a fatal bus error, `eth_rx_irq` takes all descriptors back,
initialises them again and sets the indices of both rings to zero.  The addresses
`TxNextDesc`, `TxBusyDesc`, `RxNextDesc` and `RxBusyDesc` and the numbers of filled
descriptors stay as they were, though the set-up of the queues sets them too.

Main results:

- Theorem `RxUsable.run`: in every run of the driver the addresses of the receive ring
  agree with its indices.
- Theorem `takeOwnershipLoop_eq_some`: the loop over the descriptors changes the status
  words only.
- Theorem `bookkeeping_iff`: from which states the recovery restores the bookkeeping.
-/

namespace Ls2kMorse
namespace Net

open Lib Lib.Trace

/-! ## The handler -/

/-- A fatal bus error. -/
def DmaIntErrorMask : BitVec 32 := 0x00002000#32

/-- The reception has stopped. -/
def DmaIntRxStoppedMask : BitVec 32 := 0x00000100#32

/-- A receive buffer was missing. -/
def DmaIntRxAbnMask : BitVec 32 := 0x00000080#32

/-- A frame was received. -/
def DmaIntRxNormMask : BitVec 32 := 0x00000040#32

/-- The transmission ran dry. -/
def DmaIntTxAbnMask : BitVec 32 := 0x00000020#32

/-- The transmission has stopped. -/
def DmaIntTxStoppedMask : BitVec 32 := 0x00000002#32

/-- A frame was sent. -/
def DmaIntTxNormMask : BitVec 32 := 0x00000001#32

/-- Kind of interrupt: a frame was received. -/
def synopGMACDmaRxNormal : BitVec 32 := 0x01#32

/-- Kind of interrupt: a receive buffer was missing. -/
def synopGMACDmaRxAbnormal : BitVec 32 := 0x02#32

/-- Kind of interrupt: the reception has stopped. -/
def synopGMACDmaRxStopped : BitVec 32 := 0x04#32

/-- Kind of interrupt: a frame was sent. -/
def synopGMACDmaTxNormal : BitVec 32 := 0x08#32

/-- Kind of interrupt: the transmission ran dry. -/
def synopGMACDmaTxAbnormal : BitVec 32 := 0x10#32

/-- Kind of interrupt: the transmission has stopped. -/
def synopGMACDmaTxStopped : BitVec 32 := 0x20#32

/-- Kind of interrupt: a fatal bus error. -/
def synopGMACDmaError : BitVec 32 := 0x80#32

/-- `if(data & mask) interrupts |= type`. -/
def interruptIf (data mask type interrupts : BitVec 32) : BitVec 32 :=
  if data &&& mask ≠ 0 then interrupts ||| type else interrupts

/-- `synopGMAC_get_interrupt_type`, with the value that it reads from `DmaStatus`. -/
def getInterruptType (data : BitVec 32) : BitVec 32 :=
  let interrupts := interruptIf data DmaIntErrorMask synopGMACDmaError 0
  let interrupts := interruptIf data DmaIntRxNormMask synopGMACDmaRxNormal interrupts
  let interrupts := interruptIf data DmaIntRxAbnMask synopGMACDmaRxAbnormal interrupts
  let interrupts := interruptIf data DmaIntRxStoppedMask synopGMACDmaRxStopped interrupts
  let interrupts := interruptIf data DmaIntTxNormMask synopGMACDmaTxNormal interrupts
  let interrupts := interruptIf data DmaIntTxAbnMask synopGMACDmaTxAbnormal interrupts
  interruptIf data DmaIntTxStoppedMask synopGMACDmaTxStopped interrupts

/-- The descriptor behind `synopGMAC_take_desc_ownership`. -/
def released (desc : DmaDesc) : DmaDesc :=
  { desc with status := desc.status &&& ~~~DescOwnByDma }

/-- `synopGMAC_take_desc_ownership`, which does nothing with a null pointer. -/
def takeDescOwnership (mem : Nat → DmaDesc) (desc : Nat) : Nat → DmaDesc :=
  if desc ≠ 0 then Function.update mem desc (released (mem desc)) else mem

/-- The loop of `synopGMAC_take_desc_ownership_tx` and `_rx` from the index `i` on, for the
next `n` descriptors.  It follows the chain, or counts from the first one; the test for a
chain faults on a null pointer. -/
def takeOwnershipLoop (isDescChained : DmaDesc → Bool) (mem : Nat → DmaDesc) (desc i : Nat) :
    Nat → Option (Nat → DmaDesc)
  | 0 => some mem
  | n + 1 =>
      if desc = 0 then none
      else if isDescChained (mem desc) then
        takeOwnershipLoop isDescChained (takeDescOwnership mem desc) (mem desc).data2 (i + 1) n
      else
        takeOwnershipLoop isDescChained (takeDescOwnership mem (desc + sizeofDmaDesc * i)) desc
          (i + 1) n

/-- `synopGMAC_take_desc_ownership_tx`: the driver takes every transmit descriptor. -/
def takeDescOwnershipTx (gmacdev : Device) : Option Device :=
  (takeOwnershipLoop isTxDescChained gmacdev.mem gmacdev.txDesc 0 gmacdev.txDescCount).map
    fun mem => { gmacdev with mem := mem }

/-- `synopGMAC_take_desc_ownership_rx`: the driver takes every receive descriptor. -/
def takeDescOwnershipRx (gmacdev : RxDevice) : Option RxDevice :=
  (takeOwnershipLoop isRxDescChained gmacdev.mem gmacdev.rxDesc 0 gmacdev.rxDescCount).map
    fun mem => { gmacdev with mem := mem }

/-- `synopGMAC_init_tx_rx_desc_queue`. -/
def initTxRxDescQueue (tx : Device) (rx : RxDevice) : Device × RxDevice :=
  ({ tx with
      txNext := 0
      txBusy := 0
      mem := (List.range tx.txDescCount).foldl
        (fun mem i => Function.update mem (tx.txDesc + sizeofDmaDesc * i)
          (txDescInitRing (i == tx.txDescCount - 1))) tx.mem },
    { rx with
      rxNext := 0
      rxBusy := 0
      mem := (List.range rx.rxDescCount).foldl
        (fun mem i => Function.update mem (rx.rxDesc + sizeofDmaDesc * i)
          (rxDescInitRing (i == rx.rxDescCount - 1))) rx.mem })

/-- What `eth_rx_irq` does to the rings on a fatal bus error; the rest of the recovery
writes registers only. -/
def Driver.recover (s : Driver) : Option Driver :=
  (takeDescOwnershipTx s.tx.gmacdev).bind fun tx =>
    (takeDescOwnershipRx s.rx.gmacdev).map fun rx =>
      let queues := initTxRxDescQueue tx rx
      { s with
        tx := { s.tx with gmacdev := queues.1 }
        rx := { s.rx with gmacdev := queues.2 } }

/-- `eth_rx_irq` with the two values that it reads from `DmaStatus` and `GMAC_Power_down`.
The other interrupts leave the rings as they are. -/
def Driver.ethRxIrq (s : Driver) (dmaStatusReg data : BitVec 32) (powerDown : Bool) :
    Option Driver :=
  if dmaStatusReg = 0 then some s
  else
    let interrupt := getInterruptType data
    (if interrupt &&& synopGMACDmaError ≠ 0 then s.recover else some s).bind fun s' =>
      if interrupt &&& synopGMACDmaTxStopped ≠ 0 ∧ powerDown = false then
        (takeDescOwnershipTx s'.tx.gmacdev).map fun dev =>
          { s' with tx := { s'.tx with gmacdev := dev } }
      else some s'

/-- The bookkeeping of both rings: the addresses agree with the indices, and the numbers of
filled descriptors with the descriptors. -/
structure Bookkeeping (s : Driver) : Prop where
  tx_next : s.tx.gmacdev.txNextDesc = s.tx.gmacdev.descAddr s.tx.gmacdev.txNext
  tx_busy : s.tx.gmacdev.txBusyDesc = s.tx.gmacdev.descAddr s.tx.gmacdev.txBusy
  rx_next : s.rx.gmacdev.rxNextDesc = s.rx.gmacdev.descAddr s.rx.gmacdev.rxNext
  rx_busy : s.rx.gmacdev.rxBusyDesc = s.rx.gmacdev.descAddr s.rx.gmacdev.rxBusy
  busy_tx : s.tx.gmacdev.busyTxDesc = (List.range s.tx.gmacdev.txDescCount).countP
    fun i => !isDescEmpty (s.tx.gmacdev.desc i)
  busy_rx : s.rx.gmacdev.busyRxDesc = (List.range s.rx.gmacdev.rxDescCount).countP
    fun i => !isDescEmpty (s.rx.gmacdev.desc i)

/-- Both rings stand at their first descriptor and count none as filled. -/
structure AtStart (s : Driver) : Prop where
  tx_next : s.tx.gmacdev.txNext = 0
  tx_busy : s.tx.gmacdev.txBusy = 0
  rx_next : s.rx.gmacdev.rxNext = 0
  rx_busy : s.rx.gmacdev.rxBusy = 0
  busy_tx : s.tx.gmacdev.busyTxDesc = 0
  busy_rx : s.rx.gmacdev.busyRxDesc = 0

/-! ## The receive ring in every run -/

/-- The receive side when the descriptors were not allocated. -/
structure NoRxQueue (s : Reception) : Prop where
  device : ∃ mem, s.gmacdev = RxDevice.zeroed mem
  idle : s.phase.calls = 0

/-- The receive side in any state that the driver reaches. -/
def RxUsable (s : Reception) : Prop :=
  RxRing s.gmacdev ∨ NoRxQueue s

section Receive

variable {dmaMap : Nat → BitVec 32} {s s' : Reception}

/-- Without descriptors a call faults, and the DMA has nothing to do. -/
theorem NoRxQueue.step_eq_none (h : NoRxQueue s) (dmaMap : Nat → BitVec 32) (e : RxEvent) :
    s.step dmaMap e = none := by
  rcases h.device with ⟨mem, hdev⟩
  have hidle := h.idle
  cases hphase : s.phase with
  | returned pbuf =>
      cases e with
      | call pbufAlloc => simp [Reception.step, hphase, Reception.call, hdev, RxDevice.zeroed]
      | setQptr => simp [Reception.step, hphase]
      | dma i c => simp [Reception.step, Reception.complete, hdev, RxDevice.zeroed]
  | _ =>
      rw [hphase] at hidle
      exact absurd hidle Nat.one_ne_zero

/-- A call leaves the ring as `synopGMAC_get_rx_qptr` does. -/
theorem Reception.call_gmacdev {pbufAlloc : Bool} (hstep : s.call dmaMap pbufAlloc = some s') :
    s'.gmacdev = (getRxQptr s.gmacdev).2 := by
  unfold Reception.call at hstep
  rw [Option.ite_none_left_eq_some] at hstep
  rcases hstep with ⟨-, hstep⟩
  rcases hqptr : getRxQptr s.gmacdev with ⟨completed, dev⟩
  cases completed with
  | none =>
      rw [hqptr, Option.some.injEq] at hstep
      rw [← hstep]
  | some completed =>
      rw [hqptr] at hstep
      by_cases hindex : RECEIVE_DESC_SIZE ≤ completed.index
      · simp only [if_pos hindex, Option.some.injEq] at hstep
        rw [← hstep]
      · by_cases hdata : completed.data1 ≠ 0
        · by_cases hvalid : isRxDescValid completed.status = true
          · simp only [if_neg hindex, if_pos hdata, if_pos hvalid, Option.ite_none_right_eq_some,
              Option.some.injEq] at hstep
            rw [← hstep.2]
          · simp only [if_neg hindex, if_pos hdata, if_neg hvalid, Option.some.injEq] at hstep
            rw [← hstep]
        · simp only [if_neg hindex, if_neg hdata, Option.some.injEq] at hstep
          rw [← hstep]

/-- Every step keeps the positions of the ring. -/
theorem RxRing.step (h : RxRing s.gmacdev) {e : RxEvent} (hstep : s.step dmaMap e = some s') :
    RxRing s'.gmacdev := by
  cases e with
  | call pbufAlloc =>
      rcases Reception.step_call hstep with ⟨pbuf, -, hcall⟩
      rw [Reception.call_gmacdev hcall]
      exact h.getRxQptr
  | setQptr =>
      rcases Reception.step_setQptr hstep with ⟨pbuf, dmaAddr1, data1, -, hs'⟩
      rw [hs']
      exact h.setRxQptr _ _ _ _ _
  | dma i c =>
      rw [Reception.step, Reception.complete, Option.ite_none_right_eq_some,
        Option.some.injEq] at hstep
      rcases hstep with ⟨⟨hi, -⟩, hs'⟩
      rw [← hs']
      exact h.store ((h.shape i hi).of_status c.status)

theorem RxUsable.step (h : RxUsable s) {e : RxEvent} (hstep : s.step dmaMap e = some s') :
    RxUsable s' := by
  rcases h with h | h
  · exact Or.inl (h.step hstep)
  · rw [h.step_eq_none] at hstep
    exact absurd hstep.symm (Option.some_ne_none s')

/-- The loop of `eth_init` keeps the positions of the ring. -/
theorem receiveFill_ring {dev dev' : RxDevice} (h : RxRing dev) {skbs freed : List Nat}
    (hfill : receiveFill dmaMap dev skbs = some (dev', freed)) : RxRing dev' := by
  induction skbs generalizing dev with
  | nil =>
      rw [receiveFill, Option.some.injEq, Prod.mk.injEq] at hfill
      rw [← hfill.1]
      exact h
  | cons skb skbs ih =>
      have hset := h.setRxQptr (dmaMap skb) (BitVec.ofNat 32 RX_BUF_SIZE) skb 0 0
      by_cases hzero : skb = 0
      · rw [receiveFill, if_pos hzero, Option.some.injEq, Prod.mk.injEq] at hfill
        rw [← hfill.1]
        exact h
      · rw [receiveFill, if_neg hzero, Option.ite_none_left_eq_some] at hfill
        rcases hfill with ⟨-, hfill⟩
        simp only at hfill
        split_ifs at hfill with hfull hgo
        · rw [Option.some.injEq, Prod.mk.injEq] at hfill
          rw [← hfill.1]
          exact hset
        · exact ih hset hfill
        · rw [Option.some.injEq, Prod.mk.injEq] at hfill
          rw [← hfill.1]
          exact hset

/-- Without descriptors the loop fills none. -/
theorem receiveFill_zeroed {mem : Nat → DmaDesc} {dev : RxDevice} {skbs freed : List Nat}
    (hfill : receiveFill dmaMap (RxDevice.zeroed mem) skbs = some (dev, freed)) :
    dev = RxDevice.zeroed mem := by
  cases skbs with
  | nil =>
      rw [receiveFill, Option.some.injEq, Prod.mk.injEq] at hfill
      exact hfill.1.symm
  | cons skb skbs =>
      by_cases hzero : skb = 0
      · rw [receiveFill, if_pos hzero, Option.some.injEq, Prod.mk.injEq] at hfill
        exact hfill.1.symm
      · rw [receiveFill, if_neg hzero, Option.ite_none_left_eq_some] at hfill
        exact absurd rfl hfill.1

theorem RxUsable.receiveInit {mem : Nat → DmaDesc} {heap : Nat → Nat → UInt8}
    {firstDesc : Nat} {skbs : List Nat}
    (hstart : receiveInit dmaMap mem heap firstDesc skbs = some s) : RxUsable s := by
  unfold Net.receiveInit at hstart
  rcases Option.map_eq_some_iff.mp hstart with ⟨⟨dev, freed⟩, hfill, hs⟩
  rw [← hs]
  by_cases hbase : firstDesc = 0
  · right
    refine ⟨⟨mem, ?_⟩, rfl⟩
    rw [setupRxDescQueue, if_pos hbase] at hfill
    exact receiveFill_zeroed hfill
  · left
    exact receiveFill_ring (setupRxDescQueue_ring _ hbase (by decide) (by decide)) hfill

end Receive

/-- In every run from `eth_init` on the receive side is usable. -/
theorem RxUsable.run {dmaMap : Nat → BitVec 32} {tx : Transmission} {mem : Nat → DmaDesc}
    {heap : Nat → Nat → UInt8} {firstDesc : Nat} {skbs : List Nat} {rx : Reception}
    (hstart : Net.receiveInit dmaMap mem heap firstDesc skbs = some rx) {accesses : List Access}
    {t : Driver} (hrun : run (Driver.step dmaMap) (Driver.init tx rx) accesses = some t) :
    RxUsable t.rx := by
  have hinit : RxUsable (Driver.init tx rx).rx := RxUsable.receiveInit hstart
  have hkeeps : ∀ (s : Driver) (a : Access) (s' : Driver), RxUsable s.rx →
      Driver.step dmaMap s a = some s' → RxUsable s'.rx := by
    intro s a s' hs hstep
    rcases Driver.rx_cases hstep with hrx | ⟨e, hrx⟩
    · rw [hrx]
      exact hs
    · exact hs.step hrx
  exact run_invariant_of_forall hkeeps hinit hrun

/-! ## Taking the descriptors back -/

section Release

variable {isDescChained : DmaDesc → Bool} {mem : Nat → DmaDesc} {desc i n : Nat}

theorem isTxDescChained_released (desc : DmaDesc) :
    isTxDescChained (released desc) = isTxDescChained desc := by
  have hmask : ~~~DescOwnByDma &&& TxDescChain = TxDescChain := by decide
  unfold isTxDescChained released
  rw [BitVec.and_assoc, hmask]

theorem isRxDescChained_released (desc : DmaDesc) :
    isRxDescChained (released desc) = isRxDescChained desc :=
  rfl

/-- Two memories that differ in the status words of descriptors only. -/
def SameButStatus (mem mem' : Nat → DmaDesc) : Prop :=
  ∀ a, mem' a = { mem a with status := (mem' a).status }

theorem SameButStatus.refl (mem : Nat → DmaDesc) : SameButStatus mem mem :=
  fun _ => rfl

theorem SameButStatus.trans {mem' mem'' : Nat → DmaDesc} (h : SameButStatus mem mem')
    (h' : SameButStatus mem' mem'') : SameButStatus mem mem'' := by
  intro a
  rw [h' a, h a]

/-- Taking one descriptor leaves the others, and of this one the rest. -/
theorem takeDescOwnership_apply (mem : Nat → DmaDesc) (desc a : Nat) :
    takeDescOwnership mem desc a = mem a ∨ takeDescOwnership mem desc a = released (mem a) := by
  unfold takeDescOwnership
  by_cases hnull : desc ≠ 0
  · rw [if_pos hnull]
    by_cases ha : a = desc
    · rw [ha, Function.update_self]
      exact Or.inr rfl
    · rw [Function.update_of_ne ha]
      exact Or.inl rfl
  · rw [if_neg hnull]
    exact Or.inl rfl

theorem SameButStatus.takeDescOwnership (mem : Nat → DmaDesc) (desc : Nat) :
    SameButStatus mem (takeDescOwnership mem desc) := by
  intro a
  rcases takeDescOwnership_apply mem desc a with h | h
  · rw [h]
  · rw [h]
    rfl

/-- In a ring the loop comes to its end and changes the status words only. -/
theorem takeOwnershipLoop_eq_some
    (hreleased : ∀ d, isDescChained (released d) = isDescChained d)
    (hring : 0 < n → desc ≠ 0 ∧ isDescChained (mem desc) = false) :
    ∃ mem', takeOwnershipLoop isDescChained mem desc i n = some mem' ∧
      SameButStatus mem mem' := by
  induction n generalizing mem i with
  | zero => exact ⟨mem, rfl, SameButStatus.refl mem⟩
  | succ n ih =>
      rcases hring (Nat.succ_pos n) with ⟨hnull, hchained⟩
      have hnot : ¬ isDescChained (mem desc) = true := by
        rw [hchained]
        exact Bool.false_ne_true
      -- the first descriptor may be the one taken, and is still in no chain
      have hring' : 0 < n → desc ≠ 0 ∧ isDescChained
          (takeDescOwnership mem (desc + sizeofDmaDesc * i) desc) = false := by
        intro _
        refine ⟨hnull, ?_⟩
        rcases takeDescOwnership_apply mem (desc + sizeofDmaDesc * i) desc with h | h
        · rw [h, hchained]
        · rw [h, hreleased, hchained]
      rcases ih (i := i + 1) hring' with ⟨mem', hloop, hsame⟩
      refine ⟨mem', ?_, (SameButStatus.takeDescOwnership mem _).trans hsame⟩
      rw [takeOwnershipLoop, if_neg hnull, if_neg hnot, hloop]

end Release

/-! ## The recovery -/

section Recover

variable {s t : Driver}

/-- What the recovery relies on: the addresses of the transmit ring agree with its indices,
and it has a first descriptor, which is in no chain. -/
theorem TxUsable.positions {s : Transmission} (h : TxUsable s) :
    s.gmacdev.txNextDesc = s.gmacdev.descAddr s.gmacdev.txNext ∧
      s.gmacdev.txBusyDesc = s.gmacdev.descAddr s.gmacdev.txBusy ∧
      (0 < s.gmacdev.txDescCount → s.gmacdev.txDesc ≠ 0 ∧
        isTxDescChained (s.gmacdev.mem s.gmacdev.txDesc) = false) := by
  rcases h with h | h
  · refine ⟨h.places.next_desc, h.places.busy_desc, fun hpos => ⟨h.places.txDesc_ne, ?_⟩⟩
    exact (h.places.shape 0 hpos).not_chained
  · rcases h.device with ⟨mem, hdev⟩
    rw [hdev]
    exact ⟨rfl, rfl, fun hpos => absurd hpos (Nat.lt_irrefl 0)⟩

theorem RxUsable.positions {s : Reception} (h : RxUsable s) :
    s.gmacdev.rxNextDesc = s.gmacdev.descAddr s.gmacdev.rxNext ∧
      s.gmacdev.rxBusyDesc = s.gmacdev.descAddr s.gmacdev.rxBusy ∧
      (0 < s.gmacdev.rxDescCount → s.gmacdev.rxDesc ≠ 0 ∧
        isRxDescChained (s.gmacdev.mem s.gmacdev.rxDesc) = false) := by
  rcases h with h | h
  · refine ⟨h.next_desc, h.busy_desc, fun hpos => ⟨h.rxDesc_ne, ?_⟩⟩
    exact (h.shape 0 hpos).not_chained
  · rcases h.device with ⟨mem, hdev⟩
    rw [hdev]
    exact ⟨rfl, rfl, fun hpos => absurd hpos (Nat.lt_irrefl 0)⟩

theorem takeDescOwnershipTx_eq_some {gmacdev : Device} (hring : 0 < gmacdev.txDescCount →
    gmacdev.txDesc ≠ 0 ∧ isTxDescChained (gmacdev.mem gmacdev.txDesc) = false) :
    ∃ mem, takeDescOwnershipTx gmacdev = some { gmacdev with mem := mem } ∧
      SameButStatus gmacdev.mem mem := by
  rcases takeOwnershipLoop_eq_some (i := 0) isTxDescChained_released hring with ⟨mem, hloop, hsame⟩
  exact ⟨mem, by rw [takeDescOwnershipTx, hloop, Option.map_some], hsame⟩

theorem takeDescOwnershipRx_eq_some {gmacdev : RxDevice} (hring : 0 < gmacdev.rxDescCount →
    gmacdev.rxDesc ≠ 0 ∧ isRxDescChained (gmacdev.mem gmacdev.rxDesc) = false) :
    ∃ mem, takeDescOwnershipRx gmacdev = some { gmacdev with mem := mem } ∧
      SameButStatus gmacdev.mem mem := by
  rcases takeOwnershipLoop_eq_some (i := 0) isRxDescChained_released hring with ⟨mem, hloop, hsame⟩
  exact ⟨mem, by rw [takeDescOwnershipRx, hloop, Option.map_some], hsame⟩

/-- After `synopGMAC_init_tx_rx_desc_queue` every descriptor is as after the set-up. -/
theorem initTxRxDescQueue_tx_desc (tx : Device) (rx : RxDevice) {i : Nat}
    (hi : i < tx.txDescCount) :
    (initTxRxDescQueue tx rx).1.desc i = txDescInitRing (i == tx.txDescCount - 1) :=
  foldl_update_desc tx.txDesc tx.txDescCount (fun i => txDescInitRing (i == tx.txDescCount - 1))
    tx.mem hi

theorem initTxRxDescQueue_rx_desc (tx : Device) (rx : RxDevice) {i : Nat}
    (hi : i < rx.rxDescCount) :
    (initTxRxDescQueue tx rx).2.desc i = rxDescInitRing (i == rx.rxDescCount - 1) :=
  foldl_update_desc rx.rxDesc rx.rxDescCount (fun i => rxDescInitRing (i == rx.rxDescCount - 1))
    rx.mem hi

/-- The rings after the recovery: the indices are zero and no descriptor is filled; the
addresses and the counts are the old ones. -/
structure Recovered (s t : Driver) : Prop where
  tx_device : t.tx.gmacdev =
    { s.tx.gmacdev with txNext := 0, txBusy := 0, mem := t.tx.gmacdev.mem }
  rx_device : t.rx.gmacdev =
    { s.rx.gmacdev with rxNext := 0, rxBusy := 0, mem := t.rx.gmacdev.mem }
  tx_empty : ∀ i, i < t.tx.gmacdev.txDescCount → isDescEmpty (t.tx.gmacdev.desc i) = true
  rx_empty : ∀ i, i < t.rx.gmacdev.rxDescCount → isDescEmpty (t.rx.gmacdev.desc i) = true

/-- The recovery comes to its end, and the first descriptor is in no chain. -/
theorem Driver.recover_eq_some (htx : TxUsable s.tx) (hrx : RxUsable s.rx) :
    ∃ t, s.recover = some t ∧ Recovered s t ∧ (0 < t.tx.gmacdev.txDescCount →
      t.tx.gmacdev.txDesc ≠ 0 ∧ isTxDescChained (t.tx.gmacdev.mem t.tx.gmacdev.txDesc) = false) := by
  rcases takeDescOwnershipTx_eq_some htx.positions.2.2 with ⟨txMem, htake, -⟩
  rcases takeDescOwnershipRx_eq_some hrx.positions.2.2 with ⟨rxMem, htake', -⟩
  generalize htxdev : { s.tx.gmacdev with mem := txMem } = tx at htake
  generalize hrxdev : { s.rx.gmacdev with mem := rxMem } = rx at htake'
  refine ⟨{ s with
      tx := { s.tx with gmacdev := (initTxRxDescQueue tx rx).1 }
      rx := { s.rx with gmacdev := (initTxRxDescQueue tx rx).2 } }, ?_, ⟨?_, ?_, ?_, ?_⟩, ?_⟩
  · rw [Driver.recover, htake, Option.bind_some, htake', Option.map_some]
  · rw [← htxdev]
    rfl
  · rw [← hrxdev]
    rfl
  · intro i hi
    exact (congrArg isDescEmpty (initTxRxDescQueue_tx_desc tx rx hi)).trans (cleared_init _).1
  · intro i hi
    exact (congrArg isDescEmpty (initTxRxDescQueue_rx_desc tx rx hi)).trans (cleared_rxInit _).1
  · intro hpos
    have hpos' : 0 < tx.txDescCount := hpos
    have hbase : tx.txDesc ≠ 0 := by
      rw [← htxdev] at hpos' ⊢
      exact (htx.positions.2.2 hpos').1
    refine ⟨hbase, ?_⟩
    exact (congrArg isTxDescChained (initTxRxDescQueue_tx_desc tx rx hpos')).trans
      (ringDesc_init _).not_chained

/-- A change of status words leaves a recovered ring. -/
theorem Recovered.of_sameButStatus (h : Recovered s t) {mem : Nat → DmaDesc}
    (hsame : SameButStatus t.tx.gmacdev.mem mem) :
    Recovered s { t with tx := { t.tx with gmacdev := { t.tx.gmacdev with mem := mem } } } := by
  refine ⟨?_, h.rx_device, ?_, h.rx_empty⟩
  · rw [h.tx_device]
  · intro i hi
    show isDescEmpty (mem (t.tx.gmacdev.descAddr i)) = true
    rw [hsame]
    exact h.tx_empty i hi

/-- A fatal bus error in `DmaStatus` is one of the interrupts to be handled. -/
theorem getInterruptType_error {data : BitVec 32} (herror : data &&& DmaIntErrorMask ≠ 0) :
    getInterruptType data &&& synopGMACDmaError ≠ 0 := by
  have hkeeps : ∀ mask type interrupts : BitVec 32, interrupts &&& synopGMACDmaError ≠ 0 →
      interruptIf data mask type interrupts &&& synopGMACDmaError ≠ 0 := by
    intro mask type interrupts hset
    unfold interruptIf
    by_cases hdata : data &&& mask ≠ 0
    · rw [if_pos hdata, BitVec.and_or_distrib_right]
      intro hzero
      exact hset (BitVec.or_eq_zero_iff.mp hzero).1
    · rw [if_neg hdata]
      exact hset
  have hset : interruptIf data DmaIntErrorMask synopGMACDmaError 0 &&& synopGMACDmaError ≠ 0 := by
    rw [interruptIf, if_pos herror]
    decide
  exact hkeeps _ _ _ (hkeeps _ _ _ (hkeeps _ _ _ (hkeeps _ _ _ (hkeeps _ _ _ (hkeeps _ _ _ hset)))))

/-- The handler of a fatal bus error recovers the rings, also when the transmitter has
stopped. -/
theorem Driver.ethRxIrq_eq_some (htx : TxUsable s.tx) (hrx : RxUsable s.rx)
    {dmaStatusReg data : BitVec 32} (hstatus : dmaStatusReg ≠ 0)
    (herror : data &&& DmaIntErrorMask ≠ 0) (powerDown : Bool) :
    ∃ t, s.ethRxIrq dmaStatusReg data powerDown = some t ∧ Recovered s t := by
  rcases Driver.recover_eq_some htx hrx with ⟨t, hrecover, h, hring⟩
  have hirq : s.ethRxIrq dmaStatusReg data powerDown =
      if getInterruptType data &&& synopGMACDmaTxStopped ≠ 0 ∧ powerDown = false then
        (takeDescOwnershipTx t.tx.gmacdev).map fun dev =>
          { t with tx := { t.tx with gmacdev := dev } }
      else some t := by
    simp only [Driver.ethRxIrq, if_neg hstatus, if_pos (getInterruptType_error herror), hrecover,
      Option.bind_some]
  by_cases hstopped : getInterruptType data &&& synopGMACDmaTxStopped ≠ 0 ∧ powerDown = false
  · rcases takeDescOwnershipTx_eq_some hring with ⟨mem, htake, hsame⟩
    rw [hirq, if_pos hstopped, htake, Option.map_some]
    exact ⟨_, rfl, h.of_sameButStatus hsame⟩
  · rw [hirq, if_neg hstopped]
    exact ⟨t, rfl, h⟩

end Recover

/-! ## The bookkeeping behind it -/

theorem countP_filled_eq_zero {desc : Nat → DmaDesc} {n : Nat}
    (hempty : ∀ i, i < n → isDescEmpty (desc i) = true) :
    (List.range n).countP (fun i => !isDescEmpty (desc i)) = 0 := by
  rw [List.countP_eq_zero]
  intro i hi
  rw [hempty i (List.mem_range.mp hi)]
  exact Bool.false_ne_true

/-- An address that agrees with its index is that of the first descriptor when the index is
zero. -/
theorem eq_base_iff {base addr i : Nat} (haddr : addr = base + sizeofDmaDesc * i) :
    addr = base + sizeofDmaDesc * 0 ↔ i = 0 := by
  rw [haddr]
  unfold sizeofDmaDesc
  omega

/-- From addresses that agree with the indices the recovery comes to such ones only at the
start of the rings. -/
theorem Recovered.bookkeeping_iff_atStart {s t : Driver} (htx : TxUsable s.tx)
    (hrx : RxUsable s.rx) (h : Recovered s t) : Bookkeeping t ↔ AtStart s := by
  rcases htx.positions with ⟨htxNext, htxBusy, -⟩
  rcases hrx.positions with ⟨hrxNext, hrxBusy, -⟩
  have htxCount := countP_filled_eq_zero h.tx_empty
  have hrxCount := countP_filled_eq_zero h.rx_empty
  have htxDevice := h.tx_device
  have hrxDevice := h.rx_device
  constructor
  · rintro ⟨h₁, h₂, h₃, h₄, h₅, h₆⟩
    rw [htxCount] at h₅
    rw [hrxCount] at h₆
    rw [htxDevice] at h₁ h₂ h₅
    rw [hrxDevice] at h₃ h₄ h₆
    exact ⟨(eq_base_iff htxNext).mp h₁, (eq_base_iff htxBusy).mp h₂, (eq_base_iff hrxNext).mp h₃,
      (eq_base_iff hrxBusy).mp h₄, h₅, h₆⟩
  · rintro ⟨h₁, h₂, h₃, h₄, h₅, h₆⟩
    refine ⟨?_, ?_, ?_, ?_, ?_, ?_⟩
    · rw [htxDevice]
      exact (eq_base_iff htxNext).mpr h₁
    · rw [htxDevice]
      exact (eq_base_iff htxBusy).mpr h₂
    · rw [hrxDevice]
      exact (eq_base_iff hrxNext).mpr h₃
    · rw [hrxDevice]
      exact (eq_base_iff hrxBusy).mpr h₄
    · rw [htxCount, htxDevice]
      exact h₅
    · rw [hrxCount, hrxDevice]
      exact h₆

/-- In every run from `eth_init` on, with any outcome of its allocations, the handler of a
fatal bus error restores the bookkeeping exactly when the error strikes with both rings at
their first descriptor and no descriptor counted as filled. -/
theorem bookkeeping_iff {dmaMap : Nat → BitVec 32} {mem rxMem : Nat → DmaDesc}
    {heap : Nat → List UInt8} {rxHeap : Nat → Nat → UInt8} {firstDesc rxFirstDesc : Nat}
    {skbs : List Nat} {rx : Reception}
    (hstart : receiveInit dmaMap rxMem rxHeap rxFirstDesc skbs = some rx)
    {accesses : List Access} {s : Driver}
    (hrun : run (Driver.step dmaMap) (Driver.init (ethInit mem heap firstDesc) rx) accesses =
      some s) {dmaStatusReg data : BitVec 32} (hstatus : dmaStatusReg ≠ 0)
    (herror : data &&& DmaIntErrorMask ≠ 0) (powerDown : Bool) :
    ∃ t, s.ethRxIrq dmaStatusReg data powerDown = some t ∧ (Bookkeeping t ↔ AtStart s) := by
  have htx := TxUsable.run hrun
  have hrx := RxUsable.run hstart hrun
  rcases Driver.ethRxIrq_eq_some htx hrx hstatus herror powerDown with ⟨t, hirq, h⟩
  exact ⟨t, hirq, h.bookkeeping_iff_atStart htx hrx⟩

/-- Frames that the DMA sends at once, one for each descriptor of the transmit ring. -/
def lapOfFrames : List Access :=
  (List.range TRANSMIT_DESC_SIZE).flatMap fun i =>
    [.ethTx .attached [1, 2], .transmit (.allocMemory 640), .transmit .setQptr,
      .transmit (.dma i (if i = 35 then TxDescEndOfRing else 0)), .transmit .getQptr,
      .transmit .getQptr]

/-- Behind a whole lap of the transmit ring the bookkeeping is restored. -/
theorem bookkeeping_lap : ∃ s t,
    run (Driver.step fun pbuf => BitVec.ofNat 32 pbuf) quietDriver lapOfFrames = some s ∧
      s.ethRxIrq 0x00002000#32 0x00002000#32 false = some t ∧ Bookkeeping t := by
  have hlap : (run (Driver.step fun pbuf => BitVec.ofNat 32 pbuf) quietDriver lapOfFrames).map
      (fun s => ((s.tx.gmacdev.txNext, s.tx.gmacdev.txBusy, s.tx.gmacdev.busyTxDesc),
        (s.rx.gmacdev.rxNext, s.rx.gmacdev.rxBusy, s.rx.gmacdev.busyRxDesc))) =
      some ((0, 0, 0), (0, 0, 0)) := by decide +kernel
  rcases Option.map_eq_some_iff.mp hlap with ⟨s, hs, heq⟩
  simp only [Prod.mk.injEq] at heq
  obtain ⟨⟨htxNext, htxBusy, hbusyTx⟩, hrxNext, hrxBusy, hbusyRx⟩ := heq
  have hstart : receiveInit (fun pbuf => BitVec.ofNat 32 pbuf) (fun _ => rxDescInitRing false)
      (fun _ _ => 0) 8192 [] = some withoutBuffers := rfl
  have hstatus : 0x00002000#32 ≠ 0 := by decide
  have herror : 0x00002000#32 &&& DmaIntErrorMask ≠ 0 := by decide
  rcases bookkeeping_iff hstart hs hstatus herror false with ⟨t, hirq, hiff⟩
  exact ⟨s, t, hs, hirq, hiff.mpr ⟨htxNext, htxBusy, hrxNext, hrxBusy, hbusyTx, hbusyRx⟩⟩

/-- One frame has been queued when the error strikes: behind the recovery the address of the
next descriptor is that of the second one and the index that of the first. -/
theorem recovery_keeps_addresses : ∃ rx s t,
    receiveInit (fun skb => BitVec.ofNat 32 skb) (fun _ => rxDescInitRing false) (fun _ _ => 0)
        8192 ((List.range 36).map fun i => 65536 + 4096 * i) = some rx ∧
      run (Driver.step fun pbuf => BitVec.ofNat 32 pbuf)
        (Driver.init (ethInit (fun _ => txDescInitRing false) (fun _ => []) 4096) rx)
        [.ethTx .attached [1, 2], .transmit (.allocMemory 640), .transmit .setQptr,
          .transmit .getQptr] = some s ∧
      s.ethRxIrq 0x00002000#32 0x00002000#32 false = some t ∧
      t.tx.gmacdev.txNext = 0 ∧ t.tx.gmacdev.txNextDesc = t.tx.gmacdev.descAddr 1 ∧
      ¬ Bookkeeping t := by
  have hrun : (receiveInit (fun skb => BitVec.ofNat 32 skb) (fun _ => rxDescInitRing false)
      (fun _ _ => 0) 8192 ((List.range 36).map fun i => 65536 + 4096 * i)).bind (fun rx =>
        (run (Driver.step fun pbuf => BitVec.ofNat 32 pbuf)
          (Driver.init (ethInit (fun _ => txDescInitRing false) (fun _ => []) 4096) rx)
          [.ethTx .attached [1, 2], .transmit (.allocMemory 640), .transmit .setQptr,
            .transmit .getQptr]).bind fun s =>
          (s.ethRxIrq 0x00002000#32 0x00002000#32 false).map fun t =>
            (t.tx.gmacdev.txDesc, t.tx.gmacdev.txNext, t.tx.gmacdev.txNextDesc)) =
      some (4096, 0, 4128) := by decide
  rcases Option.bind_eq_some_iff.mp hrun with ⟨rx, hstart, hbind⟩
  rcases Option.bind_eq_some_iff.mp hbind with ⟨s, hs, hmap⟩
  rcases Option.map_eq_some_iff.mp hmap with ⟨t, ht, heq⟩
  rw [Prod.mk.injEq, Prod.mk.injEq] at heq
  rcases heq with ⟨hbase, hnext, haddr⟩
  refine ⟨rx, s, t, hstart, hs, ht, hnext, ?_, ?_⟩
  · rw [haddr, Device.descAddr, hbase]
    rfl
  · intro h
    have hlaw := h.tx_next
    rw [haddr, hnext, Device.descAddr, hbase] at hlaw
    exact absurd hlaw (by decide)

end Net
end Ls2kMorse
