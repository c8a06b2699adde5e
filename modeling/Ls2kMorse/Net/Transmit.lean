import Ls2kMorse.Lib.Trace
import Ls2kMorse.Net.TxQueue

/-!
# Transmission

`rt_eth_tx` copies a frame into a buffer of its own, queues the buffer in the
descriptor ring and frees the buffers of the descriptors that the DMA has finished.
The module runs it step by step, so that the DMA may work on the ring between any two
accesses of the driver, and proves that no buffer is lost and none is freed early.

Main results:

- Theorems `step_call`, `step_allocMemory`, `step_setQptr`, `step_getQptr` and `step_dma`:
  where each step is made and what it does.
- Theorem `Inv.step`: every step of the driver and of the DMA keeps the account of
  the buffers.
- Theorem `transmission_conserved`: the account holds between the calls of every run.
-/

namespace Ls2kMorse
namespace Net

open Lib Lib.Ring Lib.Trace

/-! ## The steps of a call -/

/-- How far a call of `rt_eth_tx` has come; between the calls the last one has returned. -/
inductive Phase where
  | returned (status : Option Int)
  | allocating (p : List UInt8)
  | queueing (p : List UInt8) (pbuf : Nat)
  | reclaiming
deriving Repr, DecidableEq

/-- A call of `plat_free_memory`, with whether the buffer was allocated and whether the
DMA owned a descriptor that pointed to it. -/
structure Free where
  buffer : Nat
  live : Bool
  inUse : Bool
deriving Repr, DecidableEq

/-- The device, the contents of the buffers, and the history of the buffers: those
allocated and those queued, and the calls that freed them after transmission and
after a failure to queue them. -/
structure Transmission where
  gmacdev : Device
  phase : Phase
  heap : Nat → List UInt8
  allocated : List Nat
  queued : List Nat
  reclaimed : List Free
  dropped : List Free

/-- The buffers freed so far. -/
def Transmission.freed (s : Transmission) : List Nat :=
  s.reclaimed.map Free.buffer ++ s.dropped.map Free.buffer

/-- `plat_free_memory`. -/
def Transmission.platFreeMemory (s : Transmission) (pbuf : Nat) : Free where
  buffer := pbuf
  live := decide (s.freed.count pbuf < s.allocated.count pbuf)
  inUse := (List.range s.gmacdev.txDescCount).any fun i =>
    isDescOwnedByDma (s.gmacdev.desc i) && (s.gmacdev.desc i).data1 == pbuf

/-- What happens next: a call with a frame, the result of its allocation, its access
to the queue, a turn of its loop, or a write of the DMA to a descriptor.  The two
functions on the queue are one step each: of a descriptor that the DMA owns they read
no more than the owner and the ring bits. -/
inductive Event where
  | call (p : List UInt8)
  | allocMemory (pbuf : Nat)
  | setQptr
  | getQptr
  | dma (i : Nat) (status : BitVec 32)
deriving Repr, DecidableEq

/-- The beginning of `rt_eth_tx`; the access through a null pointer faults. -/
def Transmission.call (s : Transmission) (p : List UInt8) : Option Transmission :=
  let txdesc := s.gmacdev.txNextDesc
  if txdesc = 0 then none
  else if isDescOwnedByDma (s.gmacdev.mem txdesc) then some { s with phase := .reclaiming }
  else some { s with phase := .allocating p }

/-- The allocation, which returns no buffer in use, and the copy of the frame. -/
def Transmission.allocMemory (s : Transmission) (p : List UInt8) (pbuf : Nat) :
    Option Transmission :=
  if pbuf = 0 then some { s with phase := .returned (some (-1)) }
  else if s.allocated.count pbuf = s.freed.count pbuf then
    some
      { s with
        phase := .queueing p pbuf
        heap := Function.update s.heap pbuf p
        allocated := s.allocated ++ [pbuf] }
  else none

/-- The call of `synopGMAC_set_tx_qptr` and the test of its result. -/
def Transmission.setQptr (dmaMap : Nat → BitVec 32) (s : Transmission) (p : List UInt8)
    (pbuf : Nat) : Transmission :=
  let r := setTxQptr s.gmacdev (dmaMap pbuf) (BitVec.ofNat 32 p.length) pbuf 0 0 0
  if r.1 < 0 then
    { s with
      gmacdev := r.2
      phase := .returned (some (-16))
      dropped := s.dropped ++ [s.platFreeMemory pbuf] }
  else
    { s with
      gmacdev := r.2
      phase := .reclaiming
      queued := s.queued ++ [pbuf] }

/-- A turn of the loop over the finished descriptors. -/
def Transmission.getQptr (s : Transmission) : Transmission :=
  match getTxQptr s.gmacdev with
  | (none, dev) => { s with gmacdev := dev, phase := .returned (some 0) }
  | (some completed, dev) =>
      if completed.data1 ≠ 0 then
        { s with
          gmacdev := dev
          reclaimed := s.reclaimed ++ [s.platFreeMemory completed.data1] }
      else { s with gmacdev := dev }

/-- One step of the driver, where its call stands, or of the DMA at any time. -/
def step (dmaMap : Nat → BitVec 32) (s : Transmission) : Event → Option Transmission
  | .call p =>
      match s.phase with
      | .returned _ => s.call p
      | _ => none
  | .allocMemory pbuf =>
      match s.phase with
      | .allocating p => s.allocMemory p pbuf
      | _ => none
  | .setQptr =>
      match s.phase with
      | .queueing p pbuf => some (s.setQptr dmaMap p pbuf)
      | _ => none
  | .getQptr =>
      match s.phase with
      | .reclaiming => some s.getQptr
      | _ => none
  | .dma i status =>
      if i < s.gmacdev.txDescCount then
        (dmaWrite s.gmacdev (s.gmacdev.descAddr i) status).map fun dev =>
          { s with gmacdev := dev }
      else none

/-- The state after `eth_init`: the device structure has been cleared and the queue set
up at the address that the allocation of the descriptors returned. -/
def ethInit (mem : Nat → DmaDesc) (heap : Nat → List UInt8) (firstDesc : Nat) :
    Transmission where
  gmacdev := (setupTxDescQueue (Device.zeroed mem) firstDesc TRANSMIT_DESC_SIZE).2
  phase := .returned none
  heap := heap
  allocated := []
  queued := []
  reclaimed := []
  dropped := []

/-! ## What one step does -/

section Cases

variable {dmaMap : Nat → BitVec 32} {s s' : Transmission} {p : List UInt8} {pbuf : Nat}

/-- A call begins where none is under way. -/
theorem step_call (hstep : step dmaMap s (.call p) = some s') :
    ∃ status, s.phase = .returned status ∧ s.call p = some s' := by
  cases hphase : s.phase with
  | returned status =>
      rw [step, hphase] at hstep
      exact ⟨status, rfl, hstep⟩
  | _ => simp [step, hphase] at hstep

theorem step_allocMemory (hstep : step dmaMap s (.allocMemory pbuf) = some s') :
    ∃ p, s.phase = .allocating p ∧ s.allocMemory p pbuf = some s' := by
  cases hphase : s.phase with
  | allocating p =>
      rw [step, hphase] at hstep
      exact ⟨p, rfl, hstep⟩
  | _ => simp [step, hphase] at hstep

theorem step_setQptr (hstep : step dmaMap s .setQptr = some s') :
    ∃ p pbuf, s.phase = .queueing p pbuf ∧ s' = s.setQptr dmaMap p pbuf := by
  cases hphase : s.phase with
  | queueing p pbuf =>
      rw [step, hphase, Option.some.injEq] at hstep
      exact ⟨p, pbuf, rfl, hstep.symm⟩
  | _ => simp [step, hphase] at hstep

theorem step_getQptr (hstep : step dmaMap s .getQptr = some s') :
    s.phase = .reclaiming ∧ s' = s.getQptr := by
  cases hphase : s.phase with
  | reclaiming =>
      rw [step, hphase, Option.some.injEq] at hstep
      exact ⟨rfl, hstep.symm⟩
  | _ => simp [step, hphase] at hstep

/-- The DMA writes a descriptor of the ring at any time. -/
theorem step_dma {i : Nat} {status : BitVec 32}
    (hstep : step dmaMap s (.dma i status) = some s') :
    i < s.gmacdev.txDescCount ∧ ∃ dev,
      dmaWrite s.gmacdev (s.gmacdev.descAddr i) status = some dev ∧
        s' = { s with gmacdev := dev } := by
  rw [step, Option.ite_none_right_eq_some, Option.map_eq_some_iff] at hstep
  rcases hstep with ⟨hi, dev, hwrite, hs'⟩
  exact ⟨hi, dev, hwrite, hs'.symm⟩

/-- A call skips its frame when the DMA owns the descriptor at `txNextDesc`. -/
theorem Transmission.call_cases (hstep : s.call p = some s') :
    (isDescOwnedByDma (s.gmacdev.mem s.gmacdev.txNextDesc) = true ∧
        s' = { s with phase := .reclaiming }) ∨
      (isDescOwnedByDma (s.gmacdev.mem s.gmacdev.txNextDesc) = false ∧
        s' = { s with phase := .allocating p }) := by
  unfold Transmission.call at hstep
  rw [Option.ite_none_left_eq_some] at hstep
  rcases hstep with ⟨-, hstep⟩
  cases howned : isDescOwnedByDma (s.gmacdev.mem s.gmacdev.txNextDesc) with
  | true =>
      rw [if_pos howned, Option.some.injEq] at hstep
      exact Or.inl ⟨rfl, hstep.symm⟩
  | false =>
      rw [if_neg (Bool.not_eq_true _ ▸ howned), Option.some.injEq] at hstep
      exact Or.inr ⟨rfl, hstep.symm⟩

theorem Transmission.allocMemory_cases (hstep : s.allocMemory p pbuf = some s') :
    (pbuf = 0 ∧ s' = { s with phase := .returned (some (-1)) }) ∨
      (pbuf ≠ 0 ∧ s.allocated.count pbuf = s.freed.count pbuf ∧ s' =
        { s with
          phase := .queueing p pbuf
          heap := Function.update s.heap pbuf p
          allocated := s.allocated ++ [pbuf] }) := by
  unfold Transmission.allocMemory at hstep
  by_cases hzero : pbuf = 0
  · rw [if_pos hzero, Option.some.injEq] at hstep
    exact Or.inl ⟨hzero, hstep.symm⟩
  · rw [if_neg hzero, Option.ite_none_right_eq_some, Option.some.injEq] at hstep
    exact Or.inr ⟨hzero, hstep.1, hstep.2.symm⟩

/-- Without an empty descriptor the frame is dropped. -/
theorem Transmission.setQptr_of_full (dmaMap : Nat → BitVec 32) (p : List UInt8) (pbuf : Nat)
    (hfull : isDescEmpty (s.gmacdev.mem s.gmacdev.txNextDesc) = false) :
    s.setQptr dmaMap p pbuf =
      { s with
        phase := .returned (some (-16))
        dropped := s.dropped ++ [s.platFreeMemory pbuf] } := by
  unfold Transmission.setQptr
  rw [setTxQptr_full hfull]
  rfl

/-- With one it is queued. -/
theorem Transmission.setQptr_of_empty (dmaMap : Nat → BitVec 32) (p : List UInt8) (pbuf : Nat)
    (hempty : isDescEmpty (s.gmacdev.mem s.gmacdev.txNextDesc) = true) :
    s.setQptr dmaMap p pbuf =
      { s with
        gmacdev := (setTxQptr s.gmacdev (dmaMap pbuf) (BitVec.ofNat 32 p.length) pbuf 0 0 0).2
        phase := .reclaiming
        queued := s.queued ++ [pbuf] } := by
  have hindex := setTxQptr_nonneg hempty (dmaMap pbuf) (BitVec.ofNat 32 p.length) pbuf 0 0 0
  unfold Transmission.setQptr
  exact if_neg (Int.not_lt.mpr hindex)

/-- The loop ends, or goes on with the buffer freed. -/
theorem Transmission.getQptr_phase (hphase : s.phase = .reclaiming) :
    s.getQptr.phase = .returned (some 0) ∨ s.getQptr.phase = .reclaiming := by
  unfold Transmission.getQptr
  rcases getTxQptr s.gmacdev with ⟨completed, dev⟩
  cases completed with
  | none => exact Or.inl rfl
  | some completed =>
      right
      show (if completed.data1 ≠ 0 then _ else _ : Transmission).phase = .reclaiming
      by_cases hdata : completed.data1 ≠ 0
      · rw [if_pos hdata]
        exact hphase
      · rw [if_neg hdata]
        exact hphase

end Cases

/-- The account of the descriptors and the buffers between two calls.  A buffer that
was allocated once more than it was freed is held by one of the filled descriptors, and
no other is held; every call of `plat_free_memory` was for an allocated buffer. -/
structure Conserved (s : Transmission) : Prop where
  descriptors : s.gmacdev.txDesc ≠ 0 → s.gmacdev.txDescCount = TRANSMIT_DESC_SIZE
  next_desc : s.gmacdev.txNextDesc = s.gmacdev.txDesc + sizeofDmaDesc * s.gmacdev.txNext
  busy_desc : s.gmacdev.txBusyDesc = s.gmacdev.txDesc + sizeofDmaDesc * s.gmacdev.txBusy
  next_lt : s.gmacdev.txNext < TRANSMIT_DESC_SIZE
  busy_lt : s.gmacdev.txBusy < TRANSMIT_DESC_SIZE
  busy_count : s.gmacdev.busyTxDesc =
    (List.range s.gmacdev.txDescCount).countP fun i => !isDescEmpty (s.gmacdev.desc i)
  filled_iff : ∀ i, i < s.gmacdev.txDescCount → (isDescEmpty (s.gmacdev.desc i) = false ↔
    ∃ j, j < s.gmacdev.busyTxDesc ∧ slot s.gmacdev.txDescCount s.gmacdev.txBusy j = i)
  next_eq : s.gmacdev.txNext = slot s.gmacdev.txDescCount s.gmacdev.txBusy s.gmacdev.busyTxDesc
  balance : ∀ b, s.allocated.count b = s.freed.count b + (held s.gmacdev).count b
  held_once : (held s.gmacdev).Nodup
  order : s.reclaimed.map Free.buffer ++ held s.gmacdev = s.queued
  live : ∀ f ∈ s.reclaimed ++ s.dropped, f.live = true
  not_in_use : ∀ f ∈ s.reclaimed ++ s.dropped, f.inUse = false

/-! ## The account at every step -/

/-- The frames that fit into the length field of a descriptor. -/
def FrameLength (p : List UInt8) : Prop :=
  0 < p.length ∧ p.length < 8192

/-- The events that give the driver such frames only. -/
def Event.Admissible : Event → Prop
  | .call p => FrameLength p
  | _ => True

instance (p : List UInt8) : Decidable (FrameLength p) :=
  inferInstanceAs (Decidable (_ ∧ _))

instance (e : Event) : Decidable e.Admissible :=
  match e with
  | .call p => inferInstanceAs (Decidable (FrameLength p))
  | .allocMemory _ | .setQptr | .getQptr | .dma _ _ => isTrue trivial

/-- The frame of a call under way is such a frame. -/
def Phase.Admissible : Phase → Prop
  | .allocating p => FrameLength p
  | .queueing p _ => FrameLength p
  | _ => True

/-- The buffer that a call has allocated and not yet queued. -/
def Phase.pending : Phase → List Nat
  | .queueing _ pbuf => [pbuf]
  | _ => []

/-- The buffers still to be freed. -/
def Transmission.unfreed (s : Transmission) : List Nat :=
  held s.gmacdev ++ s.phase.pending

/-- The account of the descriptors and the buffers at every step. -/
structure Inv (s : Transmission) : Prop where
  ring : TxRing s.gmacdev
  count : s.gmacdev.txDescCount = TRANSMIT_DESC_SIZE
  order : s.reclaimed.map Free.buffer ++ held s.gmacdev = s.queued
  balance : ∀ b, s.allocated.count b = s.freed.count b + s.unfreed.count b
  distinct : s.unfreed.Nodup
  nonzero : 0 ∉ s.unfreed
  clean : ∀ f ∈ s.reclaimed ++ s.dropped, f.live = true ∧ f.inUse = false
  frame : s.phase.Admissible

section Step

variable {s : Transmission} {b : Nat}

/-- Without a buffer between allocation and queueing, the ring holds what is to be freed. -/
theorem unfreed_eq_held (h : s.phase.pending = []) : s.unfreed = held s.gmacdev := by
  unfold Transmission.unfreed
  rw [h]
  exact List.append_nil _

/-- A buffer still to be freed is allocated. -/
theorem Inv.live (h : Inv s) (hb : b ∈ s.unfreed) :
    (s.platFreeMemory b).live = true := by
  have hcount := List.count_pos_iff.mpr hb
  have hbalance := h.balance b
  unfold Transmission.platFreeMemory
  rw [decide_eq_true_eq]
  omega

/-- The DMA owns filled descriptors only. -/
theorem Inv.not_inUse (h : Inv s)
    (hb : ∀ j, j < s.gmacdev.busyTxDesc →
      isDescOwnedByDma
        (s.gmacdev.desc (slot s.gmacdev.txDescCount s.gmacdev.txBusy j)) = true →
      (s.gmacdev.desc (slot s.gmacdev.txDescCount s.gmacdev.txBusy j)).data1 ≠ b) :
    (s.platFreeMemory b).inUse = false := by
  unfold Transmission.platFreeMemory
  rw [List.any_eq_false]
  intro i hi hused
  rw [Bool.and_eq_true, beq_iff_eq] at hused
  rcases h.ring.place_of_owned (List.mem_range.mp hi) hused.1 with ⟨j, hj, hslot⟩
  rw [← hslot] at hused
  exact hb j hj hused.1 hused.2

/-- A step that allocates and frees nothing keeps the account of the buffers. -/
theorem Inv.keep (h : Inv s) {s' : Transmission} (hring : TxRing s'.gmacdev)
    (hcount : s'.gmacdev.txDescCount = TRANSMIT_DESC_SIZE)
    (horder : s'.reclaimed.map Free.buffer ++ held s'.gmacdev = s'.queued)
    (hunfreed : s'.unfreed = s.unfreed) (hallocated : s'.allocated = s.allocated)
    (hreclaimed : s'.reclaimed = s.reclaimed) (hdropped : s'.dropped = s.dropped)
    (hframe : s'.phase.Admissible) : Inv s' := by
  have hfreed : s'.freed = s.freed := by
    unfold Transmission.freed
    rw [hreclaimed, hdropped]
  refine ⟨hring, hcount, horder, ?_, ?_, ?_, ?_, hframe⟩
  · rw [hunfreed, hallocated, hfreed]
    exact h.balance
  · rw [hunfreed]
    exact h.distinct
  · rw [hunfreed]
    exact h.nonzero
  · rw [hreclaimed, hdropped]
    exact h.clean

/-- A change of the phase that allocates and frees nothing. -/
theorem Inv.of_phase (h : Inv s) {phase : Phase} (hpending : phase.pending = s.phase.pending)
    (hframe : phase.Admissible) : Inv { s with phase := phase } := by
  have hunfreed : Transmission.unfreed { s with phase := phase } = s.unfreed := by
    unfold Transmission.unfreed
    rw [hpending]
  exact h.keep h.ring h.count h.order hunfreed rfl rfl rfl hframe

theorem Inv.call (h : Inv s) {status : Option Int} (hphase : s.phase = .returned status)
    {p : List UInt8} (hp : FrameLength p) {s' : Transmission} (hstep : s.call p = some s') :
    Inv s' := by
  rcases Transmission.call_cases hstep with ⟨-, hs'⟩ | ⟨-, hs'⟩
  · rw [hs']
    exact h.of_phase (by rw [hphase]; rfl) trivial
  · rw [hs']
    exact h.of_phase (by rw [hphase]; rfl) hp

theorem Inv.allocMemory (h : Inv s) {p : List UInt8} (hphase : s.phase = .allocating p)
    {pbuf : Nat} {s' : Transmission} (hstep : s.allocMemory p pbuf = some s') : Inv s' := by
  have hunfreed : s.unfreed = held s.gmacdev := unfreed_eq_held (by rw [hphase]; rfl)
  rcases Transmission.allocMemory_cases hstep with ⟨-, hs'⟩ | ⟨hzero, hfree, hs'⟩
  · rw [hs']
    exact h.of_phase (by rw [hphase]; rfl) trivial
  · rw [eq_comm] at hs'
    -- a buffer that is not in use is not held
    have hfresh : pbuf ∉ held s.gmacdev := by
      have hbalance := h.balance pbuf
      rw [hunfreed] at hbalance
      exact List.count_eq_zero.mp (by omega)
    have hunfreed' : s'.unfreed = held s.gmacdev ++ [pbuf] := by
      rw [← hs']
      rfl
    have hframe := h.frame
    rw [hphase] at hframe
    have hdistinct := h.distinct
    rw [hunfreed] at hdistinct
    refine ⟨?_, ?_, ?_, ?_, ?_, ?_, ?_, ?_⟩
    · rw [← hs']
      exact h.ring
    · rw [← hs']
      exact h.count
    · rw [← hs']
      exact h.order
    · intro b
      have hbalance := h.balance b
      rw [hunfreed] at hbalance
      rw [hunfreed', List.count_append, ← hs']
      show (s.allocated ++ [pbuf]).count b = s.freed.count b + _
      rw [List.count_append, hbalance, Nat.add_assoc]
    · rw [hunfreed', List.nodup_append_comm, List.singleton_append, List.nodup_cons]
      exact ⟨hfresh, hdistinct⟩
    · have hnonzero := h.nonzero
      rw [hunfreed] at hnonzero
      rw [hunfreed', List.mem_append, List.mem_singleton]
      intro hmem
      rcases hmem with hmem | hmem
      · exact hnonzero hmem
      · exact hzero hmem.symm
    · rw [← hs']
      exact h.clean
    · rw [← hs']
      exact hframe

/-- A buffer that no descriptor holds is not in use. -/
theorem Inv.not_inUse_of_not_held (h : Inv s) (hb : b ∉ held s.gmacdev) :
    (s.platFreeMemory b).inUse = false := by
  apply h.not_inUse
  intro j hj _ heq
  apply hb
  exact mem_window.mpr ⟨j, hj, heq⟩

/-- The buffer of the first filled descriptor is not in use once the DMA has finished. -/
theorem Inv.not_inUse_of_finished (h : Inv s)
    (howned : isDescOwnedByDma (s.gmacdev.mem s.gmacdev.txBusyDesc) = false) :
    (s.platFreeMemory (s.gmacdev.desc s.gmacdev.txBusy).data1).inUse = false := by
  have hfirst : slot s.gmacdev.txDescCount s.gmacdev.txBusy 0 = s.gmacdev.txBusy :=
    slot_zero h.ring.busy_lt
  have hnodup : (held s.gmacdev).Nodup := h.distinct.sublist (List.sublist_append_left _ _)
  apply h.not_inUse
  intro j hj howned' heq
  -- no other descriptor holds the buffer
  have hplace : j = 0 := by
    apply slot_unique_of_nodup hnodup hj (Nat.zero_lt_of_lt hj)
    rw [hfirst]
    exact heq
  rw [hplace, hfirst, ← h.ring.busy_desc_eq, howned] at howned'
  exact Bool.false_ne_true howned'

/-- The account of a buffer that is freed. -/
theorem Inv.release (h : Inv s) {s' : Transmission} (hring : TxRing s'.gmacdev)
    (hcount : s'.gmacdev.txDescCount = TRANSMIT_DESC_SIZE)
    (horder : s'.reclaimed.map Free.buffer ++ held s'.gmacdev = s'.queued)
    (hallocated : s'.allocated = s.allocated) (hfreed : s'.freed.Perm (b :: s.freed))
    (hunfreed : s.unfreed.Perm (b :: s'.unfreed))
    (hfrees : ∀ f ∈ s'.reclaimed ++ s'.dropped,
      f ∈ s.reclaimed ++ s.dropped ∨ f = s.platFreeMemory b)
    (hinUse : (s.platFreeMemory b).inUse = false) (hframe : s'.phase.Admissible) : Inv s' := by
  have hdistinct := hunfreed.nodup_iff.mp h.distinct
  rw [List.nodup_cons] at hdistinct
  refine ⟨hring, hcount, horder, ?_, hdistinct.2, ?_, ?_, hframe⟩
  · intro x
    rw [hallocated, h.balance x, hunfreed.count_eq, hfreed.count_eq, List.count_cons,
      List.count_cons]
    omega
  · intro hzero
    exact h.nonzero (hunfreed.mem_iff.mpr (List.mem_cons_of_mem b hzero))
  · intro f hf
    rcases hfrees f hf with hold | hnew
    · exact h.clean f hold
    · rw [hnew]
      exact ⟨h.live (hunfreed.mem_iff.mpr List.mem_cons_self), hinUse⟩

/-- The call has queued its frame. -/
theorem Inv.setQptr_queue (h : Inv s) {p : List UInt8} {pbuf : Nat}
    (hphase : s.phase = .queueing p pbuf) (dmaMap : Nat → BitVec 32)
    (hempty : isDescEmpty (s.gmacdev.mem s.gmacdev.txNextDesc) = true) :
    Inv (s.setQptr dmaMap p pbuf) := by
  have hframe := h.frame
  rw [hphase] at hframe
  rcases hframe with ⟨hpos, hlt⟩
  have hsize : (BitVec.ofNat 32 p.length).toNat = p.length := by
    rw [BitVec.toNat_ofNat]
    exact Nat.mod_eq_of_lt (by omega)
  rcases setTxQptr_queue h.ring hempty (dmaMap pbuf) (hsize.symm ▸ hpos) (hsize.symm ▸ hlt)
    pbuf 0 0 with ⟨dev', hrun, hcount, hring, hheld⟩
  have hsetQptr : s.setQptr dmaMap p pbuf =
      { s with
        gmacdev := dev'
        phase := .reclaiming
        queued := s.queued ++ [pbuf] } := by
    rw [Transmission.setQptr_of_empty dmaMap p pbuf hempty, hrun]
  have hunfreed : (s.setQptr dmaMap p pbuf).unfreed = s.unfreed := by
    rw [hsetQptr, unfreed_eq_held rfl, hheld]
    unfold Transmission.unfreed
    rw [hphase]
    rfl
  rw [hsetQptr] at hunfreed ⊢
  apply h.keep hring (hcount.trans h.count) _ hunfreed rfl rfl rfl trivial
  rw [hheld, ← List.append_assoc, h.order]

/-- The call has found no empty descriptor and freed its buffer. -/
theorem Inv.setQptr_full (h : Inv s) {p : List UInt8} {pbuf : Nat}
    (hphase : s.phase = .queueing p pbuf) (dmaMap : Nat → BitVec 32)
    (hfull : isDescEmpty (s.gmacdev.mem s.gmacdev.txNextDesc) = false) :
    Inv (s.setQptr dmaMap p pbuf) := by
  have hsetQptr := Transmission.setQptr_of_full dmaMap p pbuf hfull
  have hperm : s.unfreed.Perm (pbuf :: held s.gmacdev) := by
    unfold Transmission.unfreed
    rw [hphase]
    exact List.perm_append_singleton _ _
  have hdistinct := hperm.nodup_iff.mp h.distinct
  rw [List.nodup_cons] at hdistinct
  rw [hsetQptr]
  refine h.release (b := pbuf) h.ring h.count h.order rfl ?_ ?_ ?_ ?_ ?_
  · unfold Transmission.freed
    rw [List.map_append, ← List.append_assoc]
    exact List.perm_append_singleton _ _
  · show s.unfreed.Perm (pbuf :: (held s.gmacdev ++ []))
    rw [List.append_nil]
    exact hperm
  · intro f hf
    rw [← List.append_assoc, List.mem_append, List.mem_singleton] at hf
    exact hf
  · exact h.not_inUse_of_not_held hdistinct.1
  · trivial

theorem Inv.getQptr (h : Inv s) (hphase : s.phase = .reclaiming) : Inv s.getQptr := by
  by_cases hstay : isDescOwnedByDma (s.gmacdev.mem s.gmacdev.txBusyDesc) = true ∨
      isDescEmpty (s.gmacdev.mem s.gmacdev.txBusyDesc) = true
  · unfold Transmission.getQptr
    rw [getTxQptr_none hstay]
    exact h.of_phase (by rw [hphase]; rfl) trivial
  · rw [not_or, Bool.not_eq_true, Bool.not_eq_true] at hstay
    rcases getTxQptr_take h.ring hstay.1 hstay.2 with ⟨c, dev', hrun, hdata, hcount, hring, hheld⟩
    have hunfreed : s.unfreed = c.data1 :: held dev' := by
      rw [unfreed_eq_held (by rw [hphase]; rfl), hheld]
    have hne : c.data1 ≠ 0 := by
      intro hzero
      apply h.nonzero
      rw [hunfreed, hzero]
      exact List.mem_cons_self
    have hgetQptr : s.getQptr =
        { s with
          gmacdev := dev'
          reclaimed := s.reclaimed ++ [s.platFreeMemory c.data1] } := by
      unfold Transmission.getQptr
      rw [hrun]
      exact if_pos hne
    rw [hgetQptr]
    refine h.release (b := c.data1) hring (hcount.trans h.count) ?_ rfl ?_ ?_ ?_ ?_ ?_
    · have horder := h.order
      rw [hheld] at horder
      rw [← horder, List.map_append, List.append_assoc]
      rfl
    · unfold Transmission.freed
      rw [List.map_append, List.append_assoc]
      exact List.perm_middle
    · rw [hunfreed, unfreed_eq_held (by rw [hphase]; rfl)]
    · intro f hf
      simp only [List.mem_append, List.mem_singleton] at hf ⊢
      exact or_right_comm.mp hf
    · rw [hdata]
      exact h.not_inUse_of_finished hstay.1
    · exact h.frame

theorem Inv.dma (h : Inv s) {i : Nat} (hi : i < s.gmacdev.txDescCount) {status : BitVec 32}
    {dev' : Device} (hstep : dmaWrite s.gmacdev (s.gmacdev.descAddr i) status = some dev') :
    Inv { s with gmacdev := dev' } := by
  rcases dmaWrite_ring h.ring hi hstep with ⟨hcount, hring, hheld⟩
  have hunfreed : Transmission.unfreed { s with gmacdev := dev' } = s.unfreed := by
    unfold Transmission.unfreed
    rw [hheld]
  apply h.keep hring (hcount.trans h.count) _ hunfreed rfl rfl rfl h.frame
  rw [hheld]
  exact h.order

/-- Every step keeps the account. -/
theorem Inv.step {dmaMap : Nat → BitVec 32} (h : Inv s) {e : Event} (he : e.Admissible)
    {s' : Transmission} (hstep : step dmaMap s e = some s') : Inv s' := by
  cases e with
  | call p =>
      rcases step_call hstep with ⟨status, hphase, hcall⟩
      exact h.call hphase he hcall
  | allocMemory pbuf =>
      rcases step_allocMemory hstep with ⟨p, hphase, halloc⟩
      exact h.allocMemory hphase halloc
  | setQptr =>
      rcases step_setQptr hstep with ⟨p, pbuf, hphase, hs'⟩
      rw [hs']
      cases hempty : isDescEmpty (s.gmacdev.mem s.gmacdev.txNextDesc) with
      | false => exact h.setQptr_full hphase dmaMap hempty
      | true => exact h.setQptr_queue hphase dmaMap hempty
  | getQptr =>
      rcases step_getQptr hstep with ⟨hphase, hs'⟩
      rw [hs']
      exact h.getQptr hphase
  | dma i status =>
      rcases step_dma hstep with ⟨hi, dev, hwrite, hs'⟩
      rw [hs']
      exact h.dma hi hwrite

end Step

/-! ## The account between the calls -/

/-- Between two calls the account is about the filled descriptors alone. -/
theorem Inv.conserved {s : Transmission} (h : Inv s) {status : Option Int}
    (hphase : s.phase = .returned status) : Conserved s := by
  have hunfreed : s.unfreed = held s.gmacdev := unfreed_eq_held (by rw [hphase]; rfl)
  have hring := h.ring
  refine ⟨fun _ => h.count, hring.next_desc, hring.busy_desc, h.count ▸ hring.next_lt,
    h.count ▸ hring.busy_lt, ?_, ?_, hring.next_eq, ?_, ?_, h.order, ?_, ?_⟩
  · symm
    apply countP_slots hring.busy_lt hring.busy_le
    · intro j hj
      rw [hring.filled j hj]
      rfl
    · intro j hge hj
      rw [(hring.cleared j hge hj).1]
      rfl
  · intro i hi
    constructor
    · intro hfilled
      rcases exists_slot hring.busy_lt hi with ⟨j, hj, hslot⟩
      refine ⟨j, ?_, hslot⟩
      by_contra hge
      have hclear := (hring.cleared j (Nat.le_of_not_lt hge) hj).1
      rw [hslot, hfilled] at hclear
      exact Bool.false_ne_true hclear
    · intro hplace
      rcases hplace with ⟨j, hj, hslot⟩
      rw [← hslot]
      exact hring.filled j hj
  · rw [← hunfreed]
    exact h.balance
  · rw [← hunfreed]
    exact h.distinct
  · exact fun f hf => (h.clean f hf).1
  · exact fun f hf => (h.clean f hf).2

theorem Inv.ethInit (mem : Nat → DmaDesc) (heap : Nat → List UInt8) {firstDesc : Nat}
    (hbase : firstDesc ≠ 0) : Inv (ethInit mem heap firstDesc) := by
  rcases setupTxDescQueue_ring (Device.zeroed mem) hbase (n := TRANSMIT_DESC_SIZE) (by decide)
    (by decide) with ⟨hring, hheld⟩
  have hcount : (Net.ethInit mem heap firstDesc).gmacdev.txDescCount = TRANSMIT_DESC_SIZE := by
    unfold Net.ethInit setupTxDescQueue
    rw [if_neg hbase]
  have hunfreed : (Net.ethInit mem heap firstDesc).unfreed = [] := by
    unfold Transmission.unfreed
    rw [show held (Net.ethInit mem heap firstDesc).gmacdev = [] from hheld]
    rfl
  refine ⟨hring, hcount, hheld, ?_, ?_, ?_, ?_, trivial⟩
  · intro b
    rw [hunfreed]
    rfl
  · rw [hunfreed]
    exact List.nodup_nil
  · rw [hunfreed]
    exact List.not_mem_nil
  · intro f hf
    exact absurd hf List.not_mem_nil

/-- Without memory for the descriptors nothing can happen. -/
theorem run_ethInit_null (dmaMap : Nat → BitVec 32) (mem : Nat → DmaDesc)
    (heap : Nat → List UInt8) {events : List Event} {s : Transmission}
    (hrun : run (step dmaMap) (ethInit mem heap 0) events = some s) :
    s = ethInit mem heap 0 := by
  cases events with
  | nil =>
      rw [run_nil, Option.some.injEq] at hrun
      exact hrun.symm
  | cons e events =>
      rcases run_cons_eq_some.mp hrun with ⟨s', hstep, -⟩
      cases e <;> exact absurd hstep
        (by simp [step, ethInit, setupTxDescQueue, Device.zeroed, Transmission.call])

/-- Between the calls of every run from `eth_init` on, the descriptors agree with the
indices and no buffer is lost, freed twice, freed out of order or freed while in use. -/
theorem transmission_conserved (dmaMap : Nat → BitVec 32) (mem : Nat → DmaDesc)
    (heap : Nat → List UInt8) (firstDesc : Nat) {events : List Event}
    (hframes : ∀ e ∈ events, e.Admissible) {s : Transmission}
    (hrun : run (step dmaMap) (ethInit mem heap firstDesc) events = some s)
    {status : Option Int} (hphase : s.phase = .returned status) : Conserved s := by
  by_cases hbase : firstDesc = 0
  · rw [hbase] at hrun
    rw [run_ethInit_null dmaMap mem heap hrun]
    refine ⟨fun h => absurd rfl h, rfl, rfl, Nat.succ_pos 35, Nat.succ_pos 35, rfl, ?_, rfl,
      ?_, ?_, rfl, ?_, ?_⟩
    · intro i hi
      exact absurd hi (Nat.not_lt_zero i)
    · intro b
      rfl
    · exact List.nodup_nil
    · intro f hf
      exact absurd hf List.not_mem_nil
    · intro f hf
      exact absurd hf List.not_mem_nil
  · have hinv : Inv s := by
      apply run_invariant _ (Inv.ethInit mem heap hbase) hframes hrun
      intro s e s' hs he hstep
      exact hs.step he hstep
    exact hinv.conserved hphase

/-- A call queues a frame, the DMA sends it, and the next call queues another frame and
frees the buffer of the first. -/
def twoFrames : List Event :=
  [.call [1, 2], .allocMemory 640, .setQptr, .getQptr, .dma 0 0x30000000#32,
    .call [3], .allocMemory 704, .setQptr, .getQptr, .getQptr]

theorem transmission_conserved_two_frames :
    ∃ s, run (step fun pbuf => BitVec.ofNat 32 pbuf)
        (ethInit (fun _ => txDescInitRing false) (fun _ => []) 4096) twoFrames = some s ∧
      s.reclaimed = [⟨640, true, false⟩] ∧ Conserved s := by
  have hrun : (run (step fun pbuf => BitVec.ofNat 32 pbuf)
      (ethInit (fun _ => txDescInitRing false) (fun _ => []) 4096) twoFrames).map
        (fun s => (s.phase, s.reclaimed)) =
      some (.returned (some 0), [⟨640, true, false⟩]) := by decide +kernel
  rcases Option.map_eq_some_iff.mp hrun with ⟨s, hs, heq⟩
  rw [Prod.mk.injEq] at heq
  exact ⟨s, hs, heq.2, transmission_conserved _ _ _ _ (by decide) hs heq.1⟩

end Net
end Ls2kMorse
