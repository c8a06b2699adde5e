import Ls2kMorse.Lib.RoundRobin
import Ls2kMorse.Lib.Trace
import Ls2kMorse.Net.RxQueue
import Mathlib.Data.List.GetD

/-!
# Reception

`rt_eth_rx` takes one finished descriptor back, copies its frame and puts the buffer into
the descriptor at `RxNextDesc`.  The module runs it step by step, so that the DMA may
finish descriptors between its two accesses to the ring, and proves that the two always
meet the same descriptor: the buffers stay where `eth_init` put them, and the frames are
returned in ring order.

Main results:

- Theorem `receiveFill_full`: `eth_init` fills every descriptor when it gets all buffers.
- Theorem `RxInv.step`: every step of the driver and of the DMA keeps the account of
  the descriptors, the buffers and the frames.
- Theorem `reception_conserved`: the account holds between the calls of every run.
-/

namespace Ls2kMorse
namespace Net

open Lib Lib.Ring Lib.RoundRobin Lib.Trace

/-! ## The steps of a call -/

/-- How far a call of `rt_eth_rx` has come, with the frame it has copied; between the
calls the last one has returned.  It hangs on an index behind the ring. -/
inductive RxPhase where
  | returned (pbuf : Option (List UInt8))
  | refilling (pbuf : Option (List UInt8)) (dmaAddr1 : BitVec 32) (data1 : Nat)
  | hung
deriving Repr, DecidableEq

/-- What the DMA leaves when it has finished a descriptor: the status word, and the bytes
from the beginning of the buffer on. -/
structure Completion where
  status : BitVec 32
  data : Nat → UInt8

/-- The device, the contents of the buffers, and the history: what the DMA has finished in
each descriptor, the number of descriptors taken back, the frames returned and the
buffers freed. -/
structure Reception where
  gmacdev : RxDevice
  phase : RxPhase
  heap : Nat → Nat → UInt8
  completions : Nat → List Completion
  taken : Nat
  delivered : List (List UInt8)
  freed : List Nat

/-- What happens next: a call, with the outcome of its `pbuf_alloc`, its access to the
queue, or a completion by the DMA. -/
inductive RxEvent where
  | call (pbufAlloc : Bool)
  | setQptr
  | dma (i : Nat) (c : Completion)

/-- The beginning of `rt_eth_rx` up to the refill.  The access through a null pointer
faults, and so does the copy into a `pbuf` that was not allocated. -/
def Reception.call (dmaMap : Nat → BitVec 32) (s : Reception) (pbufAlloc : Bool) :
    Option Reception :=
  if s.gmacdev.rxBusyDesc = 0 then none
  else
    match getRxQptr s.gmacdev with
    | (none, dev) => some { s with gmacdev := dev, phase := .returned none }
    | (some completed, dev) =>
        let s' := { s with gmacdev := dev, taken := s.taken + 1 }
        if RECEIVE_DESC_SIZE ≤ completed.index then some { s' with phase := .hung }
        else if completed.data1 ≠ 0 then
          if isRxDescValid completed.status then
            let len := getRxDescFrameLength completed.status - 4
            if pbufAlloc then
              let pbuf := (List.range len.toNat).map (s.heap completed.data1)
              some { s' with
                phase := .refilling (some pbuf) (dmaMap completed.data1) completed.data1 }
            else none
          else some { s' with phase := .refilling none completed.buffer1 completed.data1 }
        else some { s' with phase := .returned none }

/-- The call of `synopGMAC_set_rx_qptr` and the test of its result. -/
def Reception.setQptr (s : Reception) (pbuf : Option (List UInt8)) (dmaAddr1 : BitVec 32)
    (data1 : Nat) : Reception :=
  let r := setRxQptr s.gmacdev dmaAddr1 (BitVec.ofNat 32 RX_BUF_SIZE) data1 0 0 0
  { s with
    gmacdev := r.2
    phase := .returned pbuf
    delivered := s.delivered ++ pbuf.toList
    freed := if r.1 < 0 then s.freed ++ [data1] else s.freed }

/-- The DMA finishes a descriptor it owns: it has written the buffer, and writes the
status without the ownership bit. -/
def Reception.complete (s : Reception) (i : Nat) (c : Completion) : Option Reception :=
  let desc := s.gmacdev.desc i
  let desc' := { desc with status := c.status }
  if i < s.gmacdev.rxDescCount ∧ isDescOwnedByDma desc ∧ ¬ isDescOwnedByDma desc' then
    some
      { s with
        gmacdev :=
          { s.gmacdev with
            mem := Function.update s.gmacdev.mem (s.gmacdev.descAddr i) desc' }
        heap := Function.update s.heap desc.data1 c.data
        completions := Function.update s.completions i (s.completions i ++ [c]) }
  else none

/-- One step of the driver, where its call stands, or of the DMA at any time. -/
def Reception.step (dmaMap : Nat → BitVec 32) (s : Reception) : RxEvent → Option Reception
  | .call pbufAlloc =>
      match s.phase with
      | .returned _ => s.call dmaMap pbufAlloc
      | _ => none
  | .setQptr =>
      match s.phase with
      | .refilling pbuf dmaAddr1 data1 => some (s.setQptr pbuf dmaAddr1 data1)
      | _ => none
  | .dma i c => s.complete i c

/-- The loop of `eth_init` that fills the ring, with the addresses that its allocations
return; behind them an allocation fails.  Also the buffers that it frees. -/
def receiveFill (dmaMap : Nat → BitVec 32) (gmacdev : RxDevice) :
    List Nat → Option (RxDevice × List Nat)
  | [] => some (gmacdev, [])
  | skb :: skbs =>
      if skb = 0 then some (gmacdev, [])
      else if gmacdev.rxNextDesc = 0 then none
      else
        let r := setRxQptr gmacdev (dmaMap skb) (BitVec.ofNat 32 RX_BUF_SIZE) skb 0 0 0
        if r.1 < 0 then some (r.2, [skb])
        else if r.1 < (RECEIVE_DESC_SIZE : Int) - 1 then receiveFill dmaMap r.2 skbs
        else some (r.2, [])

/-- The state before the first call. -/
def Reception.start (heap : Nat → Nat → UInt8) (gmacdev : RxDevice) (freed : List Nat) :
    Reception where
  gmacdev := gmacdev
  phase := .returned none
  heap := heap
  completions := fun _ => []
  taken := 0
  delivered := []
  freed := freed

/-- The state after `eth_init`: the device structure has been cleared, the queue set up at
the address that the allocation of the descriptors returned, and the ring filled. -/
def receiveInit (dmaMap : Nat → BitVec 32) (mem : Nat → DmaDesc) (heap : Nat → Nat → UInt8)
    (firstDesc : Nat) (skbs : List Nat) : Option Reception :=
  (receiveFill dmaMap
    (setupRxDescQueue (RxDevice.zeroed mem) firstDesc RECEIVE_DESC_SIZE).2 skbs).map
    fun r => Reception.start heap r.1 r.2

/-! ## The account between two calls -/

/-- The frame of a completion without an error, less its checksum. -/
def Completion.frame (c : Completion) : Option (List UInt8) :=
  if isRxDescValid c.status then
    some ((List.range ((getRxDescFrameLength c.status).toNat - 4)).map c.data)
  else none

/-- A descriptor that the DMA has finished and the driver has not taken back. -/
def isWaiting (desc : DmaDesc) : Bool :=
  !isDescEmpty desc && !isDescOwnedByDma desc

/-- The frame that a step returns from `rt_eth_rx`, when it is the last one of a call. -/
def RxEvent.returned : RxEvent → Reception → List (List UInt8)
  | .dma _ _, _ => []
  | .call _, s | .setQptr, s =>
      match s.phase with
      | .returned pbuf => pbuf.toList
      | .refilling _ _ _ | .hung => []

/-- The frames that the calls of a run return, one after the other. -/
def returnedFrames (dmaMap : Nat → BitVec 32) : Reception → List RxEvent → List (List UInt8)
  | _, [] => []
  | s, e :: events =>
      match s.step dmaMap e with
      | none => []
      | some s' => e.returned s' ++ returnedFrames dmaMap s' events

/-- A completion by the DMA with its descriptor. -/
def RxEvent.ofDma (x : Nat × Completion) : RxEvent :=
  .dma x.1 x.2

/-- The account of the descriptors, the buffers and the frames between two calls, for the
buffers that `eth_init` has allocated and the frames that the calls have returned. -/
structure RxConserved (dmaMap : Nat → BitVec 32) (skbs : List Nat) (returned : List (List UInt8))
    (s : Reception) : Prop where
  next_eq_busy : s.gmacdev.rxNext = s.gmacdev.rxBusy
  filled : ∀ i, i < RECEIVE_DESC_SIZE → isDescEmpty (s.gmacdev.desc i) = false
  /-- Every descriptor holds its buffer. -/
  own_buffer : ∀ i, i < RECEIVE_DESC_SIZE → skbs[i]? = some (s.gmacdev.desc i).data1 ∧
    (s.gmacdev.desc i).buffer1 = dmaMap (s.gmacdev.desc i).data1
  distinct : ((List.range RECEIVE_DESC_SIZE).map fun i => (s.gmacdev.desc i).data1).Nodup
  not_freed : s.freed = []
  /-- The frames returned are those of the completions in ring order. -/
  in_order : returned =
    (inTurn s.completions RECEIVE_DESC_SIZE s.taken).filterMap Completion.frame
  /-- Every completion of a descriptor has been taken back but for the one that may wait. -/
  once : ∀ i, i < RECEIVE_DESC_SIZE → (s.completions i).length =
    visits RECEIVE_DESC_SIZE s.taken i + if isWaiting (s.gmacdev.desc i) then 1 else 0
  /-- A call that finds a completion returns its frame, whatever the DMA does meanwhile. -/
  takes : isWaiting (s.gmacdev.desc s.gmacdev.rxBusy) = true →
    ∃ c, (s.completions s.gmacdev.rxBusy).getLast? = some c ∧
      (∃ s', s.step dmaMap (.call true) = some s') ∧
      ∀ (dmas : List (Nat × Completion)) s',
        run (Reception.step dmaMap) s (.call true :: dmas.map RxEvent.ofDma) = some s' →
        ∃ t, s'.step dmaMap .setQptr = some t ∧ t.phase = .returned c.frame ∧
          t.taken = s.taken + 1
  /-- A call that finds none returns at once. -/
  idles : isWaiting (s.gmacdev.desc s.gmacdev.rxBusy) = false → ∀ pbufAlloc,
    s.step dmaMap (.call pbufAlloc) = some { s with phase := .returned none }

/-! ## The account at every step -/

/-- The completions that the DMA makes: a valid frame has room for its checksum. -/
def RxEvent.Admissible : RxEvent → Prop
  | .dma _ c => isRxDescValid c.status = true → 4 ≤ (getRxDescFrameLength c.status).toNat
  | _ => True

instance RxEvent.decidableAdmissible (e : RxEvent) : Decidable e.Admissible :=
  match e with
  | .dma _ _ => inferInstanceAs (Decidable (_ → _))
  | .call _ | .setQptr => isTrue trivial

/-- The frame that a call has copied and not yet returned. -/
def RxPhase.copied : RxPhase → List (List UInt8)
  | .refilling pbuf _ _ => pbuf.toList
  | _ => []

/-- Where a call stands the ring has no empty descriptor, or the one that the call has just
emptied and is about to fill with the same buffer. -/
def RxPhase.Agrees (dmaMap : Nat → BitVec 32) (skb : Nat → Nat) (dev : RxDevice) :
    RxPhase → Prop
  | .returned _ => dev.rxNext = dev.rxBusy ∧
      ∀ i, i < dev.rxDescCount → isDescEmpty (dev.desc i) = false
  | .refilling _ dmaAddr1 data1 => dev.rxBusy = (dev.rxNext + 1) % dev.rxDescCount ∧
      Cleared (dev.desc dev.rxNext) ∧
      (∀ i, i < dev.rxDescCount → i ≠ dev.rxNext → isDescEmpty (dev.desc i) = false) ∧
      dmaAddr1 = dmaMap (skb dev.rxNext) ∧ data1 = skb dev.rxNext
  | .hung => False

/-- The account of the descriptors, the buffers and the frames at every step. -/
structure RxInv (dmaMap : Nat → BitVec 32) (skb : Nat → Nat) (s : Reception) : Prop where
  ring : RxRing s.gmacdev
  count : s.gmacdev.rxDescCount = RECEIVE_DESC_SIZE
  busy : s.gmacdev.rxBusy = s.taken % RECEIVE_DESC_SIZE
  agrees : s.phase.Agrees dmaMap skb s.gmacdev
  buffers : ∀ i, i < RECEIVE_DESC_SIZE → isDescEmpty (s.gmacdev.desc i) = false →
    (s.gmacdev.desc i).data1 = skb i ∧ (s.gmacdev.desc i).buffer1 = dmaMap (skb i)
  waiting : ∀ i, i < RECEIVE_DESC_SIZE → isWaiting (s.gmacdev.desc i) = true →
    (s.completions i).getLast? = some ⟨(s.gmacdev.desc i).status, s.heap (skb i)⟩
  lengths : ∀ i, ∀ c ∈ s.completions i, isRxDescValid c.status = true →
    4 ≤ (getRxDescFrameLength c.status).toNat
  once : ∀ i, i < RECEIVE_DESC_SIZE → (s.completions i).length =
    visits RECEIVE_DESC_SIZE s.taken i + if isWaiting (s.gmacdev.desc i) then 1 else 0
  in_order : s.delivered ++ s.phase.copied =
    (inTurn s.completions RECEIVE_DESC_SIZE s.taken).filterMap Completion.frame
  not_freed : s.freed = []

section Step

variable {dmaMap : Nat → BitVec 32} {skb : Nat → Nat} {s : Reception}

/-- A call begins where none is under way. -/
theorem Reception.step_call {pbufAlloc : Bool} {s' : Reception}
    (hstep : s.step dmaMap (.call pbufAlloc) = some s') :
    ∃ pbuf, s.phase = .returned pbuf ∧ s.call dmaMap pbufAlloc = some s' := by
  cases hphase : s.phase with
  | returned pbuf =>
      rw [Reception.step, hphase] at hstep
      exact ⟨pbuf, rfl, hstep⟩
  | _ => simp [Reception.step, hphase] at hstep

/-- A refill happens in a call that holds a packet. -/
theorem Reception.step_setQptr {s' : Reception} (hstep : s.step dmaMap .setQptr = some s') :
    ∃ pbuf dmaAddr1 data1, s.phase = .refilling pbuf dmaAddr1 data1 ∧
      s' = s.setQptr pbuf dmaAddr1 data1 := by
  cases hphase : s.phase with
  | refilling pbuf dmaAddr1 data1 =>
      rw [Reception.step, hphase, Option.some.injEq] at hstep
      exact ⟨pbuf, dmaAddr1, data1, rfl, hstep.symm⟩
  | _ => simp [Reception.step, hphase] at hstep

/-- A descriptor waits when it has a buffer and belongs to the driver. -/
theorem isWaiting_iff {desc : DmaDesc} : isWaiting desc = true ↔
    isDescEmpty desc = false ∧ isDescOwnedByDma desc = false := by
  unfold isWaiting
  rw [Bool.and_eq_true, Bool.not_eq_true', Bool.not_eq_true']

/-- A cleared descriptor does not wait. -/
theorem isWaiting_of_cleared {desc : DmaDesc} (h : Cleared desc) : isWaiting desc = false := by
  unfold isWaiting
  rw [h.1]
  rfl

/-- A descriptor of the DMA does not wait. -/
theorem isWaiting_of_owned {desc : DmaDesc} (h : isDescOwnedByDma desc = true) :
    isWaiting desc = false := by
  unfold isWaiting
  rw [h, Bool.not_true, Bool.and_false]

theorem isDescOwnedByDma_fillRxRing (desc : DmaDesc) (rxnext : Nat) (buffer1 length1 : BitVec 32)
    (data1 : Nat) (buffer2 length2 : BitVec 32) (data2 : Nat) :
    isDescOwnedByDma (fillRxRing desc rxnext buffer1 length1 data1 buffer2 length2 data2) =
      true := by
  show (DescOwnByDma &&& DescOwnByDma == DescOwnByDma) = true
  rw [BitVec.and_self, beq_self_eq_true]

/-- What a call copies is the frame of the completion. -/
theorem frame_eq_copied {c : Completion}
    (hlength : isRxDescValid c.status = true → 4 ≤ (getRxDescFrameLength c.status).toNat) :
    c.frame = if isRxDescValid c.status then
      some ((List.range (getRxDescFrameLength c.status - 4).toNat).map c.data) else none := by
  unfold Completion.frame
  by_cases hvalid : isRxDescValid c.status = true
  · have hfour : (4 : BitVec 32).toNat = 4 := rfl
    have hle : 4 ≤ getRxDescFrameLength c.status := hlength hvalid
    rw [if_pos hvalid, if_pos hvalid, BitVec.toNat_sub_of_le hle, hfour]
  · rw [if_neg hvalid, if_neg hvalid]

/-- The completion that the next call takes back, when the DMA has finished the descriptor
at `rxBusy`. -/
def Reception.next (s : Reception) : Completion where
  status := (s.gmacdev.desc s.gmacdev.rxBusy).status
  data := s.heap (s.gmacdev.desc s.gmacdev.rxBusy).data1

/-- The state in which a call has taken it back. -/
def Reception.taking (dmaMap : Nat → BitVec 32) (s : Reception) : Reception :=
  { s with
    gmacdev := s.gmacdev.clear
      (rxDescInitRing (isLastRxDesc s.gmacdev (s.gmacdev.desc s.gmacdev.rxBusy)))
    phase := .refilling s.next.frame (dmaMap (s.gmacdev.desc s.gmacdev.rxBusy).data1)
      (s.gmacdev.desc s.gmacdev.rxBusy).data1
    taken := s.taken + 1 }

theorem RxInv.busy_lt (h : RxInv dmaMap skb s) : s.gmacdev.rxBusy < RECEIVE_DESC_SIZE :=
  h.count ▸ h.ring.busy_lt

theorem RxInv.last_next (h : RxInv dmaMap skb s)
    (hwaiting : isWaiting (s.gmacdev.desc s.gmacdev.rxBusy) = true) :
    (s.completions s.gmacdev.rxBusy).getLast? = some s.next := by
  have hfilled := (isWaiting_iff.mp hwaiting).1
  unfold Reception.next
  rw [h.waiting _ h.busy_lt hwaiting, (h.buffers _ h.busy_lt hfilled).1]

theorem RxInv.busyDesc_ne (h : RxInv dmaMap skb s) : s.gmacdev.rxBusyDesc ≠ 0 := by
  have hbase := h.ring.rxDesc_ne
  rw [h.ring.busy_desc, RxDevice.descAddr]
  omega

/-- A call that finds no completion. -/
theorem RxInv.call_idle (h : RxInv dmaMap skb s)
    (hnot : isWaiting (s.gmacdev.desc s.gmacdev.rxBusy) = false) (pbufAlloc : Bool) :
    s.call dmaMap pbufAlloc = some { s with phase := .returned none } := by
  have hstay : isDescOwnedByDma (s.gmacdev.mem s.gmacdev.rxBusyDesc) = true ∨
      isDescEmpty (s.gmacdev.mem s.gmacdev.rxBusyDesc) = true := by
    rw [h.ring.busy_desc_eq]
    by_contra hneither
    rw [not_or, Bool.not_eq_true, Bool.not_eq_true] at hneither
    rw [isWaiting_iff.mpr hneither.symm] at hnot
    exact Bool.noConfusion hnot
  unfold Reception.call
  rw [if_neg h.busyDesc_ne, getRxQptr_none hstay]

/-- A call that finds one takes it back, unless its frame gets no `pbuf`. -/
theorem RxInv.call_waiting (h : RxInv dmaMap skb s)
    (hskb : ∀ i, i < RECEIVE_DESC_SIZE → skb i ≠ 0)
    (hwaiting : isWaiting (s.gmacdev.desc s.gmacdev.rxBusy) = true) (pbufAlloc : Bool) :
    s.call dmaMap pbufAlloc =
      if isRxDescValid s.next.status = true ∧ pbufAlloc = false then none
      else some (s.taking dmaMap) := by
  have hmem := h.ring.busy_desc_eq
  have hstay := (isWaiting_iff.mp hwaiting).symm
  rcases h.buffers _ h.busy_lt hstay.2 with ⟨hdata, hbuffer⟩
  rw [← hdata] at hbuffer
  have hframe := frame_eq_copied (h.lengths _ _ (List.mem_of_getLast? (h.last_next hwaiting)))
  have hindex : ¬ RECEIVE_DESC_SIZE ≤ s.gmacdev.completed.index := Nat.not_le_of_lt h.busy_lt
  have hne : s.gmacdev.completed.data1 ≠ 0 := by
    intro hzero
    exact hskb _ h.busy_lt (hdata.symm.trans hzero)
  unfold Reception.call
  rw [if_neg h.busyDesc_ne, getRxQptr_clear h.ring hstay.1 hstay.2]
  simp only [if_neg hindex, if_pos hne]
  unfold Reception.taking
  rw [hframe]
  by_cases hvalid : isRxDescValid s.gmacdev.completed.status = true
  · have hvalid' : isRxDescValid s.next.status = true := hvalid
    rw [if_pos hvalid, if_pos hvalid']
    cases pbufAlloc with
    | true =>
        rw [if_pos rfl, if_neg fun hboth => Bool.noConfusion hboth.2]
        rfl
    | false => rw [if_neg Bool.false_ne_true, if_pos ⟨hvalid', rfl⟩]
  · have hvalid' : ¬ isRxDescValid s.next.status = true := hvalid
    rw [if_neg hvalid, if_neg hvalid', if_neg fun hboth => hvalid' hboth.1, ← hbuffer]
    rfl

/-- A call finds nothing, or takes a descriptor back that waits. -/
theorem RxInv.call_cases (h : RxInv dmaMap skb s) (hskb : ∀ i, i < RECEIVE_DESC_SIZE → skb i ≠ 0)
    {pbufAlloc : Bool} {s' : Reception} (hstep : s.call dmaMap pbufAlloc = some s') :
    s' = { s with phase := .returned none } ∨
      isWaiting (s.gmacdev.desc s.gmacdev.rxBusy) = true ∧ s' = s.taking dmaMap := by
  cases hwaiting : isWaiting (s.gmacdev.desc s.gmacdev.rxBusy) with
  | false =>
      rw [h.call_idle hwaiting, Option.some.injEq] at hstep
      exact Or.inl hstep.symm
  | true =>
      rw [h.call_waiting hskb hwaiting, Option.ite_none_left_eq_some, Option.some.injEq] at hstep
      exact Or.inr ⟨rfl, hstep.2.symm⟩

/-- A call that has found nothing. -/
theorem RxInv.idle (h : RxInv dmaMap skb s) {pbuf : Option (List UInt8)}
    (hphase : s.phase = .returned pbuf) : RxInv dmaMap skb { s with phase := .returned none } := by
  have hagrees := h.agrees
  have horder := h.in_order
  rw [hphase] at hagrees horder
  exact ⟨h.ring, h.count, h.busy, hagrees, h.buffers, h.waiting, h.lengths, h.once, horder,
    h.not_freed⟩

/-- A descriptor that is written with its own buffer, or with none, leaves the buffers with
their descriptors. -/
theorem RxInv.buffers_update (h : RxInv dmaMap skb s) {j : Nat} {d : DmaDesc}
    (hd : j < RECEIVE_DESC_SIZE → isDescEmpty d = false →
      d.data1 = skb j ∧ d.buffer1 = dmaMap (skb j)) :
    ∀ i, i < RECEIVE_DESC_SIZE →
      isDescEmpty (Function.update s.gmacdev.desc j d i) = false →
        (Function.update s.gmacdev.desc j d i).data1 = skb i ∧
          (Function.update s.gmacdev.desc j d i).buffer1 = dmaMap (skb i) :=
  (Function.forall_update_iff _ fun i d => i < RECEIVE_DESC_SIZE → isDescEmpty d = false →
    d.data1 = skb i ∧ d.buffer1 = dmaMap (skb i)).mpr ⟨hd, fun i _ => h.buffers i⟩

/-- A descriptor that does not wait adds nothing to what waits. -/
theorem RxInv.waiting_update (h : RxInv dmaMap skb s) {j : Nat} {d : DmaDesc}
    (hd : isWaiting d = false) :
    ∀ i, i < RECEIVE_DESC_SIZE →
      isWaiting (Function.update s.gmacdev.desc j d i) = true →
        (s.completions i).getLast? =
          some ⟨(Function.update s.gmacdev.desc j d i).status, s.heap (skb i)⟩ := by
  apply (Function.forall_update_iff _ fun i d => i < RECEIVE_DESC_SIZE → isWaiting d = true →
    (s.completions i).getLast? = some ⟨d.status, s.heap (skb i)⟩).mpr
  constructor
  · intro _ hw
    rw [hd] at hw
    exact absurd hw Bool.false_ne_true
  · exact fun i _ => h.waiting i

/-- A call that has taken a descriptor back. -/
theorem RxInv.taking (h : RxInv dmaMap skb s) {pbuf : Option (List UInt8)}
    (hphase : s.phase = .returned pbuf)
    (hwaiting : isWaiting (s.gmacdev.desc s.gmacdev.rxBusy) = true) :
    RxInv dmaMap skb (s.taking dmaMap) := by
  have hagrees := h.agrees
  have horder := h.in_order
  rw [hphase] at hagrees horder
  rcases hagrees with ⟨hnext, hfilled⟩
  have hclear := cleared_rxInit (isLastRxDesc s.gmacdev (s.gmacdev.desc s.gmacdev.rxBusy))
  have hdesc : (s.taking dmaMap).gmacdev.desc =
      Function.update s.gmacdev.desc s.gmacdev.rxBusy _ := RxDevice.desc_clear
  have hdata := h.buffers _ h.busy_lt (isWaiting_iff.mp hwaiting).1
  -- the completion taken back is the last one of its descriptor
  have hturn : (s.completions (s.taken % RECEIVE_DESC_SIZE))[s.taken / RECEIVE_DESC_SIZE]? =
      some s.next := by
    have hlast := h.last_next hwaiting
    have honce := h.once _ h.busy_lt
    rw [List.getLast?_eq_getElem?, honce, if_pos hwaiting, Nat.add_sub_cancel, h.busy,
      visits_self] at hlast
    exact hlast
  refine ⟨h.ring.clear h.ring.cleared_shape, h.count, ?_, ?_, ?_, ?_, h.lengths, ?_, ?_,
    h.not_freed⟩
  · show (s.gmacdev.rxBusy + 1) % s.gmacdev.rxDescCount = (s.taken + 1) % RECEIVE_DESC_SIZE
    rw [h.busy, h.count, Nat.mod_add_mod]
  · show (s.taking dmaMap).gmacdev.rxBusy = _ ∧ _
    refine ⟨?_, ?_, ?_, ?_, ?_⟩
    · show (s.gmacdev.rxBusy + 1) % s.gmacdev.rxDescCount = _
      rw [← hnext]
      rfl
    · show Cleared ((s.taking dmaMap).gmacdev.desc s.gmacdev.rxNext)
      rw [hdesc, hnext, Function.update_self]
      exact hclear
    · intro i hi hne
      have hne' : i ≠ s.gmacdev.rxBusy := fun heq => hne (heq.trans hnext.symm)
      rw [hdesc, Function.update_of_ne hne']
      exact hfilled i hi
    · show dmaMap (s.gmacdev.desc s.gmacdev.rxBusy).data1 = dmaMap (skb s.gmacdev.rxNext)
      rw [hdata.1, hnext]
    · show (s.gmacdev.desc s.gmacdev.rxBusy).data1 = skb s.gmacdev.rxNext
      rw [hdata.1, hnext]
  · rw [hdesc]
    apply h.buffers_update
    intro _ hne
    rw [hclear.1] at hne
    exact absurd hne.symm Bool.false_ne_true
  · rw [hdesc]
    exact h.waiting_update (isWaiting_of_cleared hclear)
  · intro i hi
    show (s.completions i).length = visits RECEIVE_DESC_SIZE (s.taken + 1) i + _
    rw [hdesc, visits_succ hi, h.once i hi, ← h.busy]
    by_cases hib : i = s.gmacdev.rxBusy
    · rw [hib, Function.update_self, isWaiting_of_cleared hclear, hwaiting, if_pos rfl, if_pos rfl,
        if_neg Bool.false_ne_true, Nat.add_zero]
    · rw [Function.update_of_ne hib, if_neg hib]
      rfl
  · show s.delivered ++ s.next.frame.toList =
      (inTurn s.completions RECEIVE_DESC_SIZE (s.taken + 1)).filterMap Completion.frame
    have hdelivered : s.delivered = s.delivered ++ RxPhase.copied (.returned pbuf) :=
      (List.append_nil _).symm
    rw [inTurn_succ hturn, List.filterMap_append, ← horder, ← hdelivered]
    cases hframe : s.next.frame <;> simp [hframe]

/-- A call that has put the buffer back. -/
theorem RxInv.setQptr (h : RxInv dmaMap skb s) {pbuf : Option (List UInt8)}
    {dmaAddr1 : BitVec 32} {data1 : Nat} (hphase : s.phase = .refilling pbuf dmaAddr1 data1) :
    RxInv dmaMap skb (s.setQptr pbuf dmaAddr1 data1) := by
  have hagrees := h.agrees
  have horder := h.in_order
  rw [hphase] at hagrees horder
  rcases hagrees with ⟨hbusy, hclear, hfilled, haddr, hdata⟩
  have hrun := setRxQptr_fill h.ring hclear.1 dmaAddr1 (BitVec.ofNat 32 RX_BUF_SIZE) data1 0 0
  generalize hd : fillRxRing (s.gmacdev.desc s.gmacdev.rxNext) s.gmacdev.rxNext dmaAddr1
    (BitVec.ofNat 32 RX_BUF_SIZE) data1 0 0 0 = d at hrun
  have hnonempty : isDescEmpty d = false := by
    rw [← hd]
    exact fillRxRing_nonempty _ _ _ (by decide) (by decide) _ _ _ _
  have howned : isDescOwnedByDma d = true := by
    rw [← hd]
    exact isDescOwnedByDma_fillRxRing _ _ _ _ _ _ _ _
  have hshape : RxRingDesc (s.gmacdev.rxNext = s.gmacdev.rxDescCount - 1) d := by
    rw [← hd]
    exact (h.ring.shape _ h.ring.next_lt).fillRxRing _ _ _ _ _ _
  have hindex : ¬ ((s.gmacdev.rxNext : Int) < 0) := by omega
  have hset : s.setQptr pbuf dmaAddr1 data1 =
      { s with
        gmacdev := s.gmacdev.fill d
        phase := .returned pbuf
        delivered := s.delivered ++ pbuf.toList } := by
    simp only [Reception.setQptr, hrun, if_neg hindex]
  rw [hset]
  refine ⟨h.ring.fill hshape, h.count, h.busy, ?_, ?_, ?_, h.lengths, ?_, ?_, h.not_freed⟩
  · refine ⟨hbusy.symm, ?_⟩
    intro i hi
    rw [RxDevice.desc_fill]
    by_cases hin : i = s.gmacdev.rxNext
    · rw [hin, Function.update_self]
      exact hnonempty
    · rw [Function.update_of_ne hin]
      exact hfilled i hi hin
  · simp only [RxDevice.desc_fill]
    apply h.buffers_update
    intro _ _
    rw [← hd]
    exact ⟨hdata, haddr⟩
  · simp only [RxDevice.desc_fill]
    exact h.waiting_update (isWaiting_of_owned howned)
  · intro i hi
    simp only [RxDevice.desc_fill]
    rw [h.once i hi]
    by_cases hin : i = s.gmacdev.rxNext
    · rw [hin, Function.update_self, isWaiting_of_owned howned, isWaiting_of_cleared hclear]
    · rw [Function.update_of_ne hin]
  · show (s.delivered ++ pbuf.toList) ++ [] = _
    rw [List.append_nil]
    exact horder

/-- A descriptor that the DMA owns is not empty. -/
theorem RxInv.filled_of_owned (h : RxInv dmaMap skb s) {i : Nat} (hi : i < RECEIVE_DESC_SIZE)
    (howned : isDescOwnedByDma (s.gmacdev.desc i) = true) :
    isDescEmpty (s.gmacdev.desc i) = false := by
  have hi' : i < s.gmacdev.rxDescCount := h.count.symm ▸ hi
  have hagrees := h.agrees
  cases hphase : s.phase with
  | returned pbuf =>
      rw [hphase] at hagrees
      exact hagrees.2 i hi'
  | refilling pbuf dmaAddr1 data1 =>
      rw [hphase] at hagrees
      rcases hagrees with ⟨-, hclear, hfilled, -⟩
      apply hfilled i hi'
      intro hin
      rw [hin, hclear.2] at howned
      exact Bool.false_ne_true howned
  | hung =>
      rw [hphase] at hagrees
      exact hagrees.elim

/-- A change of the status of a descriptor that the DMA owns keeps what the call relies on. -/
theorem RxInv.agrees_store (h : RxInv dmaMap skb s) {i : Nat}
    (howned : isDescOwnedByDma (s.gmacdev.desc i) = true) (status : BitVec 32) :
    s.phase.Agrees dmaMap skb
      (s.gmacdev.store i { s.gmacdev.desc i with status := status }) := by
  have hempty : ∀ k, isDescEmpty ((s.gmacdev.store i
      { s.gmacdev.desc i with status := status }).desc k) = isDescEmpty (s.gmacdev.desc k) := by
    intro k
    rw [RxDevice.desc_store]
    by_cases hki : k = i
    · rw [hki, Function.update_self]
      rfl
    · rw [Function.update_of_ne hki]
  have hagrees := h.agrees
  cases hphase : s.phase with
  | returned pbuf =>
      rw [hphase] at hagrees
      refine ⟨hagrees.1, ?_⟩
      intro k hk
      rw [hempty]
      exact hagrees.2 k hk
  | refilling pbuf dmaAddr1 data1 =>
      rw [hphase] at hagrees
      rcases hagrees with ⟨hbusy, hclear, hfilled, haddr, hdata⟩
      refine ⟨hbusy, ?_, ?_, haddr, hdata⟩
      · have hne : s.gmacdev.rxNext ≠ i := by
          intro heq
          rw [← heq, hclear.2] at howned
          exact Bool.false_ne_true howned
        rw [RxDevice.desc_store]
        show Cleared (Function.update s.gmacdev.desc i _ s.gmacdev.rxNext)
        rw [Function.update_of_ne hne]
        exact hclear
      · intro k hk hne
        rw [hempty]
        exact hfilled k hk hne
  | hung =>
      rw [hphase] at hagrees
      exact hagrees.elim

/-- What has been taken back was complete before. -/
theorem RxInv.read_lt (h : RxInv dmaMap skb s) {j : Nat} (hj : j < s.taken) :
    j / RECEIVE_DESC_SIZE < (s.completions (j % RECEIVE_DESC_SIZE)).length := by
  have hlt : j % RECEIVE_DESC_SIZE < RECEIVE_DESC_SIZE := Nat.mod_lt j (Nat.succ_pos 35)
  rw [h.once _ hlt]
  exact Nat.lt_add_right _ (div_lt_visits hj)

/-- The DMA has finished a descriptor. -/
theorem RxInv.complete (h : RxInv dmaMap skb s)
    (hinj : ∀ i, i < RECEIVE_DESC_SIZE → ∀ k, k < RECEIVE_DESC_SIZE → skb i = skb k → i = k)
    {i : Nat} {c : Completion}
    (hc : isRxDescValid c.status = true → 4 ≤ (getRxDescFrameLength c.status).toNat)
    {s' : Reception} (hstep : s.complete i c = some s') : RxInv dmaMap skb s' := by
  unfold Reception.complete at hstep
  rw [Option.ite_none_right_eq_some, Option.some.injEq] at hstep
  rcases hstep with ⟨⟨hi', howned, hnot⟩, hs'⟩
  have hi : i < RECEIVE_DESC_SIZE := h.count ▸ hi'
  have hfilled := h.filled_of_owned hi howned
  have hdata := h.buffers i hi hfilled
  have hwaiting : isWaiting { s.gmacdev.desc i with status := c.status } = true :=
    isWaiting_iff.mpr ⟨hfilled, Bool.not_eq_true _ ▸ hnot⟩
  have hstore : s' =
      { s with
        gmacdev := s.gmacdev.store i { s.gmacdev.desc i with status := c.status }
        heap := Function.update s.heap (skb i) c.data
        completions := Function.update s.completions i (s.completions i ++ [c]) } := by
    rw [← hs', ← hdata.1]
    rfl
  rw [hstore]
  refine ⟨h.ring.store ((h.ring.shape i hi').of_status _), h.count, h.busy,
    h.agrees_store howned c.status, ?_, ?_, ?_, ?_, ?_, h.not_freed⟩
  · simp only [RxDevice.desc_store]
    exact h.buffers_update fun _ _ => hdata
  · intro k hk hw
    simp only [RxDevice.desc_store] at hw ⊢
    by_cases hki : k = i
    · rw [hki, Function.update_self, Function.update_self, Function.update_self,
        List.getLast?_append, List.getLast?_singleton]
      rfl
    · -- the buffers of the other descriptors are others
      have hne : skb k ≠ skb i := fun heq => hki (hinj k hk i hi heq)
      rw [Function.update_of_ne hki] at hw ⊢
      rw [Function.update_of_ne hki, Function.update_of_ne hne]
      exact h.waiting k hk hw
  · intro k b hb
    by_cases hki : k = i
    · simp only [hki, Function.update_self, List.mem_append, List.mem_singleton] at hb
      rcases hb with hb | hb
      · exact h.lengths i b hb
      · rw [hb]
        exact hc
    · simp only [Function.update_of_ne hki] at hb
      exact h.lengths k b hb
  · intro k hk
    simp only [RxDevice.desc_store]
    by_cases hki : k = i
    · rw [hki, Function.update_self, Function.update_self, List.length_append, h.once i hi,
        isWaiting_of_owned howned, hwaiting, if_neg Bool.false_ne_true, if_pos rfl]
      rfl
    · rw [Function.update_of_ne hki, Function.update_of_ne hki]
      exact h.once k hk
  · show s.delivered ++ s.phase.copied = _
    rw [h.in_order, inTurn_push fun j hj => h.read_lt hj]

/-- Every step keeps the account. -/
theorem RxInv.step (h : RxInv dmaMap skb s) (hskb : ∀ i, i < RECEIVE_DESC_SIZE → skb i ≠ 0)
    (hinj : ∀ i, i < RECEIVE_DESC_SIZE → ∀ k, k < RECEIVE_DESC_SIZE → skb i = skb k → i = k)
    {e : RxEvent} (he : e.Admissible) {s' : Reception} (hstep : s.step dmaMap e = some s') :
    RxInv dmaMap skb s' := by
  cases e with
  | call pbufAlloc =>
      rcases Reception.step_call hstep with ⟨pbuf, hphase, hcall⟩
      rcases h.call_cases hskb hcall with hidle | ⟨hwaiting, htaking⟩
      · rw [hidle]
        exact h.idle hphase
      · rw [htaking]
        exact h.taking hphase hwaiting
  | setQptr =>
      rcases Reception.step_setQptr hstep with ⟨pbuf, dmaAddr1, data1, hphase, hs'⟩
      rw [hs']
      exact h.setQptr hphase
  | dma i c => exact h.complete hinj he hstep

/-- A completion leaves the call where it stands. -/
theorem Reception.complete_phase {i : Nat} {c : Completion} {s' : Reception}
    (hstep : s.complete i c = some s') :
    s'.phase = s.phase ∧ s'.taken = s.taken ∧ s'.delivered = s.delivered := by
  unfold Reception.complete at hstep
  rw [Option.ite_none_right_eq_some, Option.some.injEq] at hstep
  rw [← hstep.2]
  exact ⟨rfl, rfl, rfl⟩

/-- So do several ones. -/
theorem Reception.run_dma {dmas : List (Nat × Completion)} {s' : Reception}
    (hrun : run (Reception.step dmaMap) s (dmas.map RxEvent.ofDma) = some s') :
    s'.phase = s.phase ∧ s'.taken = s.taken := by
  induction dmas generalizing s with
  | nil =>
      rw [List.map_nil, run_nil, Option.some.injEq] at hrun
      rw [hrun]
      exact ⟨rfl, rfl⟩
  | cons x dmas ih =>
      rcases run_cons_eq_some.mp hrun with ⟨s₁, hstep, hrest⟩
      have hkeep := Reception.complete_phase (i := x.1) (c := x.2) hstep
      have hlater := ih hrest
      exact ⟨hlater.1.trans hkeep.1, hlater.2.trans hkeep.2.1⟩

/-- A call that finds a completion returns its frame. -/
theorem RxInv.takes (h : RxInv dmaMap skb s) (hskb : ∀ i, i < RECEIVE_DESC_SIZE → skb i ≠ 0)
    {pbuf : Option (List UInt8)} (hphase : s.phase = .returned pbuf)
    (hwaiting : isWaiting (s.gmacdev.desc s.gmacdev.rxBusy) = true) :
    (∃ s', s.step dmaMap (.call true) = some s') ∧
      ∀ (dmas : List (Nat × Completion)) s',
        run (Reception.step dmaMap) s (.call true :: dmas.map RxEvent.ofDma) = some s' →
        ∃ t, s'.step dmaMap .setQptr = some t ∧ t.phase = .returned s.next.frame ∧
          t.taken = s.taken + 1 := by
  have hcall : s.step dmaMap (.call true) = some (s.taking dmaMap) := by
    rw [Reception.step, hphase]
    exact (h.call_waiting hskb hwaiting true).trans
      (if_neg fun hboth => Bool.noConfusion hboth.2)
  refine ⟨⟨_, hcall⟩, ?_⟩
  intro dmas s' hrun
  rcases run_cons_eq_some.mp hrun with ⟨s₁, hstep, hrest⟩
  rw [hcall, Option.some.injEq] at hstep
  subst hstep
  rcases Reception.run_dma hrest with ⟨hphase', htaken⟩
  refine ⟨s'.setQptr s.next.frame (dmaMap (s.gmacdev.desc s.gmacdev.rxBusy).data1)
    (s.gmacdev.desc s.gmacdev.rxBusy).data1, ?_, rfl, htaken⟩
  rw [Reception.step, hphase']
  rfl

/-- What a step returns is added to the frames returned. -/
theorem Reception.delivered_step {e : RxEvent} {s' : Reception}
    (hstep : s.step dmaMap e = some s') : s'.delivered = s.delivered ++ e.returned s' := by
  cases e with
  | dma i c =>
      rw [(Reception.complete_phase (i := i) (c := c) hstep).2.2]
      exact (List.append_nil _).symm
  | setQptr =>
      rcases Reception.step_setQptr hstep with ⟨pbuf, dmaAddr1, data1, -, hs'⟩
      rw [hs']
      rfl
  | call pbufAlloc =>
      rcases Reception.step_call hstep with ⟨-, -, hcall⟩
      unfold Reception.call at hcall
      rw [Option.ite_none_left_eq_some] at hcall
      rcases hcall with ⟨-, hcall⟩
      rcases hread : getRxQptr s.gmacdev with ⟨_ | completed, dev⟩
      · rw [hread, Option.some.injEq] at hcall
        rw [← hcall]
        exact (List.append_nil _).symm
      · rw [hread] at hcall
        simp only at hcall
        split_ifs at hcall <;> rw [Option.some.injEq] at hcall <;> rw [← hcall] <;>
          exact (List.append_nil _).symm

/-- The frames returned are those that the calls of the run return. -/
theorem Reception.delivered_run {events : List RxEvent} {s' : Reception}
    (hrun : run (Reception.step dmaMap) s events = some s') :
    s'.delivered = s.delivered ++ returnedFrames dmaMap s events := by
  induction events generalizing s with
  | nil =>
      rw [run_nil, Option.some.injEq] at hrun
      rw [hrun]
      exact (List.append_nil _).symm
  | cons e events ih =>
      rcases run_cons_eq_some.mp hrun with ⟨s₁, hstep, hrest⟩
      rw [ih hrest, Reception.delivered_step hstep, returnedFrames, hstep, List.append_assoc]

end Step

/-! ## From the start -/

section Init

variable {dmaMap : Nat → BitVec 32} {skb : Nat → Nat}

/-- The ring when `eth_init` has filled `k` descriptors. -/
structure Filling (dmaMap : Nat → BitVec 32) (skb : Nat → Nat) (k : Nat) (dev : RxDevice) :
    Prop where
  ring : RxRing dev
  count : dev.rxDescCount = RECEIVE_DESC_SIZE
  next : dev.rxNext = k % RECEIVE_DESC_SIZE
  busy : dev.rxBusy = 0
  filled : ∀ i, i < k → isDescEmpty (dev.desc i) = false ∧
    isDescOwnedByDma (dev.desc i) = true ∧ (dev.desc i).data1 = skb i ∧
    (dev.desc i).buffer1 = dmaMap (skb i)
  cleared : ∀ i, k ≤ i → i < RECEIVE_DESC_SIZE → Cleared (dev.desc i)

/-- One turn of the loop. -/
theorem Filling.fill {k : Nat} {dev : RxDevice} (h : Filling dmaMap skb k dev)
    (hk : k < RECEIVE_DESC_SIZE) : ∃ dev',
      setRxQptr dev (dmaMap (skb k)) (BitVec.ofNat 32 RX_BUF_SIZE) (skb k) 0 0 0 =
        ((k : Int), dev') ∧
        Filling dmaMap skb (k + 1) dev' := by
  have hnext : dev.rxNext = k := h.next.trans (Nat.mod_eq_of_lt hk)
  have hclear : isDescEmpty (dev.desc dev.rxNext) = true := by
    rw [hnext]
    exact (h.cleared k (Nat.le_refl k) hk).1
  have hshape := (h.ring.shape _ h.ring.next_lt).fillRxRing dev.rxNext (dmaMap (skb k))
    (BitVec.ofNat 32 RX_BUF_SIZE) (skb k) 0 0
  refine ⟨_, (setRxQptr_fill h.ring hclear _ _ _ _ _).trans (by rw [hnext]),
    h.ring.fill hshape, h.count, ?_, h.busy, ?_, ?_⟩
  · show (dev.rxNext + 1) % dev.rxDescCount = _
    rw [hnext, h.count]
  · intro i hi
    rw [RxDevice.desc_fill, hnext]
    by_cases hik : i = k
    · rw [hik, Function.update_self]
      exact ⟨fillRxRing_nonempty _ _ _ (by decide) (by decide) _ _ _ _,
        isDescOwnedByDma_fillRxRing _ _ _ _ _ _ _ _, rfl, rfl⟩
    · rw [Function.update_of_ne hik]
      exact h.filled i (Nat.lt_of_le_of_ne (Nat.le_of_lt_succ hi) hik)
  · intro i hge hi
    rw [RxDevice.desc_fill, hnext, Function.update_of_ne (Nat.ne_of_gt hge)]
    exact h.cleared i (Nat.le_of_succ_le hge) hi

/-- When every allocation succeeds the loop fills every descriptor and frees nothing. -/
theorem receiveFill_full {skbs : List Nat} {k : Nat} {dev : RxDevice}
    (h : Filling dmaMap skb k dev) (hpos : 0 < skbs.length)
    (hlength : k + skbs.length = RECEIVE_DESC_SIZE) (hzero : 0 ∉ skbs)
    (hskbs : ∀ j, j < skbs.length → skbs[j]? = some (skb (k + j))) :
    ∃ dev', receiveFill dmaMap dev skbs = some (dev', []) ∧
      Filling dmaMap skb RECEIVE_DESC_SIZE dev' := by
  induction skbs generalizing k dev with
  | nil => exact absurd hpos (Nat.lt_irrefl 0)
  | cons b skbs ih =>
      rw [List.length_cons] at hlength
      have hk : k < RECEIVE_DESC_SIZE := by omega
      have hb : b = skb k := Option.some.inj (hskbs 0 hpos)
      have hne : b ≠ 0 := fun hb0 => hzero (hb0 ▸ List.mem_cons_self)
      have haddr : dev.rxNextDesc ≠ 0 := by
        have hbase := h.ring.rxDesc_ne
        rw [h.ring.next_desc, RxDevice.descAddr]
        omega
      rcases h.fill hk with ⟨dev', hset, hfilling⟩
      have hindex : ¬ ((k : Int) < 0) := by omega
      rw [receiveFill, if_neg hne, if_neg haddr, hb]
      simp only [hset, if_neg hindex]
      cases skbs with
      | nil =>
          have hlast : k + 1 = RECEIVE_DESC_SIZE := hlength
          have hstop : ¬ ((k : Int) < (RECEIVE_DESC_SIZE : Int) - 1) := by omega
          rw [if_neg hstop]
          exact ⟨dev', rfl, hlast ▸ hfilling⟩
      | cons b' skbs =>
          rw [List.length_cons] at hlength
          have hgo : (k : Int) < (RECEIVE_DESC_SIZE : Int) - 1 := by omega
          rw [if_pos hgo]
          apply ih hfilling (Nat.succ_pos _) (by rw [List.length_cons]; omega)
          · exact fun hmem => hzero (List.mem_cons_of_mem b hmem)
          · intro j hj
            have hnext := hskbs (j + 1) (Nat.succ_lt_succ hj)
            rw [List.getElem?_cons_succ] at hnext
            rw [hnext, Nat.add_assoc, Nat.add_comm 1 j]

/-- The state after `eth_init` when all buffers were allocated. -/
theorem RxInv.receiveInit (dmaMap : Nat → BitVec 32) (mem : Nat → DmaDesc)
    (heap : Nat → Nat → UInt8) {firstDesc : Nat} (hbase : firstDesc ≠ 0) {skbs : List Nat}
    (hlength : skbs.length = RECEIVE_DESC_SIZE) (hzero : 0 ∉ skbs) :
    ∃ s, receiveInit dmaMap mem heap firstDesc skbs = some s ∧
      RxInv dmaMap (fun i => skbs.getD i 0) s := by
  have hempty : Filling dmaMap (fun i => skbs.getD i 0) 0
      (setupRxDescQueue (RxDevice.zeroed mem) firstDesc RECEIVE_DESC_SIZE).2 := by
    refine ⟨setupRxDescQueue_ring _ hbase (by decide) (by decide), ?_, ?_, ?_, ?_, ?_⟩
    · rw [setupRxDescQueue, if_neg hbase]
    · rw [setupRxDescQueue, if_neg hbase]
      rfl
    · rw [setupRxDescQueue, if_neg hbase]
    · intro i hi
      exact absurd hi (Nat.not_lt_zero i)
    · intro i _ hi
      rw [setupRxDescQueue_desc _ hbase hi]
      exact cleared_rxInit _
  have hskbs : ∀ j, j < skbs.length → skbs[j]? = some (skbs.getD (0 + j) 0) := by
    intro j hj
    rw [Nat.zero_add, List.getD_eq_getElem _ _ hj, List.getElem?_eq_getElem hj]
  rcases receiveFill_full hempty (hlength ▸ Nat.succ_pos 35) (Nat.zero_add _ ▸ hlength) hzero hskbs
    with ⟨dev, hfill, h⟩
  refine ⟨Reception.start heap dev [], ?_, ?_⟩
  · unfold Net.receiveInit
    rw [hfill]
    rfl
  · have hnot : ∀ i, i < RECEIVE_DESC_SIZE → isWaiting (dev.desc i) = false :=
      fun i hi => isWaiting_of_owned (h.filled i hi).2.1
    refine ⟨h.ring, h.count, h.busy, ⟨?_, ?_⟩, ?_, ?_, ?_, ?_, rfl, rfl⟩
    · exact h.next.trans h.busy.symm
    · intro i hi
      exact (h.filled i (h.count ▸ hi)).1
    · intro i hi _
      exact (h.filled i hi).2.2
    · intro i hi hw
      exact absurd ((hnot i hi).symm.trans hw) Bool.false_ne_true
    · intro i c hc
      exact absurd hc List.not_mem_nil
    · intro i hi
      show 0 = visits RECEIVE_DESC_SIZE 0 i + if isWaiting (dev.desc i) then 1 else 0
      rw [visits_zero, hnot i hi, if_neg Bool.false_ne_true]

end Init

/-! ## The account between the calls -/

/-- Between two calls the account is about filled descriptors alone. -/
theorem RxInv.conserved {dmaMap : Nat → BitVec 32} {skbs : List Nat}
    (hlength : skbs.length = RECEIVE_DESC_SIZE)
    (hskb : ∀ i, i < RECEIVE_DESC_SIZE → skbs.getD i 0 ≠ 0)
    (hinj : ∀ i, i < RECEIVE_DESC_SIZE → ∀ k, k < RECEIVE_DESC_SIZE →
      skbs.getD i 0 = skbs.getD k 0 → i = k) {s : Reception}
    (h : RxInv dmaMap (fun i => skbs.getD i 0) s) {pbuf : Option (List UInt8)}
    (hphase : s.phase = .returned pbuf) : RxConserved dmaMap skbs s.delivered s := by
  have hagrees := h.agrees
  have horder := h.in_order
  rw [hphase] at hagrees horder
  have hfilled : ∀ i, i < RECEIVE_DESC_SIZE → isDescEmpty (s.gmacdev.desc i) = false :=
    fun i hi => hagrees.2 i (h.count.symm ▸ hi)
  refine ⟨hagrees.1, hfilled, ?_, ?_, h.not_freed, ?_, h.once, ?_, ?_⟩
  · intro i hi
    rcases h.buffers i hi (hfilled i hi) with ⟨hdata, hbuffer⟩
    have hi' : i < skbs.length := hlength.symm ▸ hi
    rw [hdata, hbuffer, List.getD_eq_getElem _ _ hi', List.getElem?_eq_getElem hi']
    exact ⟨rfl, rfl⟩
  · apply List.Nodup.map_on _ List.nodup_range
    intro i hi k hk heq
    rw [List.mem_range] at hi hk
    rw [(h.buffers i hi (hfilled i hi)).1, (h.buffers k hk (hfilled k hk)).1] at heq
    exact hinj i hi k hk heq
  · rw [← horder]
    exact (List.append_nil _).symm
  · intro hwaiting
    exact ⟨s.next, h.last_next hwaiting, h.takes hskb hphase hwaiting⟩
  · intro hnot pbufAlloc
    rw [Reception.step, hphase]
    exact h.call_idle hnot pbufAlloc

theorem receiveInit_delivered {dmaMap : Nat → BitVec 32} {mem : Nat → DmaDesc}
    {heap : Nat → Nat → UInt8} {firstDesc : Nat} {skbs : List Nat} {start : Reception}
    (hstart : receiveInit dmaMap mem heap firstDesc skbs = some start) : start.delivered = [] := by
  rcases Option.map_eq_some_iff.mp hstart with ⟨r, -, rfl⟩
  rfl

/-- When `eth_init` has allocated all buffers, between the calls of every run the driver
fills the descriptor that it takes back, every descriptor holds its own buffer, no buffer
is freed, each completed frame is returned once and in ring order, and the next call
returns the frame that waits. -/
theorem reception_conserved (dmaMap : Nat → BitVec 32) (mem : Nat → DmaDesc)
    (heap : Nat → Nat → UInt8) {firstDesc : Nat} (hbase : firstDesc ≠ 0) {skbs : List Nat}
    (hlength : skbs.length = RECEIVE_DESC_SIZE) (hzero : 0 ∉ skbs) (hnodup : skbs.Nodup)
    {start : Reception} (hstart : receiveInit dmaMap mem heap firstDesc skbs = some start)
    {events : List RxEvent} (hevents : ∀ e ∈ events, e.Admissible) {s : Reception}
    (hrun : run (Reception.step dmaMap) start events = some s) {pbuf : Option (List UInt8)}
    (hphase : s.phase = .returned pbuf) :
    RxConserved dmaMap skbs (returnedFrames dmaMap start events) s := by
  have hnone := receiveInit_delivered hstart
  rcases RxInv.receiveInit dmaMap mem heap hbase hlength hzero with ⟨start', hstart', hinv'⟩
  rw [hstart', Option.some.injEq] at hstart
  rw [hstart] at hinv'
  have hskb : ∀ i, i < RECEIVE_DESC_SIZE → skbs.getD i 0 ≠ 0 := by
    intro i hi h0
    rw [← hlength] at hi
    rw [List.getD_eq_getElem _ _ hi] at h0
    exact hzero (h0 ▸ List.getElem_mem hi)
  have hinj : ∀ i, i < RECEIVE_DESC_SIZE → ∀ k, k < RECEIVE_DESC_SIZE →
      skbs.getD i 0 = skbs.getD k 0 → i = k := by
    intro i hi k hk heq
    rw [← hlength] at hi hk
    rw [List.getD_eq_getElem _ _ hi, List.getD_eq_getElem _ _ hk] at heq
    exact (List.Nodup.getElem_inj_iff hnodup).mp heq
  have hinv : RxInv dmaMap (fun i => skbs.getD i 0) s := by
    apply run_invariant _ hinv' hevents hrun
    intro s e s' hs he hstep
    exact hs.step hskb hinj he hstep
  have hconserved := hinv.conserved hlength hskb hinj hphase
  rw [Reception.delivered_run hrun, hnone, List.nil_append] at hconserved
  exact hconserved

/-- The DMA writes a frame of 6 bytes into the first buffer and one with an error into the
second.  Three calls return the first one less its checksum, nothing for the second, and
nothing as there is no third. -/
def twoCompletions : List RxEvent :=
  [.dma 0 ⟨0x00060300#32, fun k => if k = 0 then 7 else 9⟩, .dma 1 ⟨0x00068300#32, fun _ => 5⟩,
    .call true, .setQptr, .call true, .setQptr, .call true]

theorem reception_conserved_two_completions :
    ∃ start s, receiveInit (fun skb => BitVec.ofNat 32 skb) (fun _ => rxDescInitRing false)
        (fun _ _ => 0) 4096 ((List.range 36).map fun i => 65536 + 4096 * i) = some start ∧
      run (Reception.step fun skb => BitVec.ofNat 32 skb) start twoCompletions = some s ∧
      returnedFrames (fun skb => BitVec.ofNat 32 skb) start twoCompletions = [[7, 9]] ∧
      s.taken = 2 ∧
      RxConserved (fun skb => BitVec.ofNat 32 skb)
        ((List.range 36).map fun i => 65536 + 4096 * i)
        (returnedFrames (fun skb => BitVec.ofNat 32 skb) start twoCompletions) s := by
  have hrun : (receiveInit (fun skb => BitVec.ofNat 32 skb) (fun _ => rxDescInitRing false)
      (fun _ _ => 0) 4096 ((List.range 36).map fun i => 65536 + 4096 * i)).bind (fun start =>
        (run (Reception.step fun skb => BitVec.ofNat 32 skb) start twoCompletions).map fun s =>
          (s.phase, s.taken,
            returnedFrames (fun skb => BitVec.ofNat 32 skb) start twoCompletions)) =
      some (.returned none, 2, [[7, 9]]) := by decide
  rcases Option.bind_eq_some_iff.mp hrun with ⟨start, hstart, hmap⟩
  rcases Option.map_eq_some_iff.mp hmap with ⟨s, hs, heq⟩
  rw [Prod.mk.injEq, Prod.mk.injEq] at heq
  exact ⟨start, s, hstart, hs, heq.2.2, heq.2.1, reception_conserved _ _ _ (by decide) (by decide)
    (by decide) (by decide) hstart (by decide) hs heq.1⟩

end Net
end Ls2kMorse
