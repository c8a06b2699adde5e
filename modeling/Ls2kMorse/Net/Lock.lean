import Ls2kMorse.Net.Receive
import Ls2kMorse.Net.Transmit

/-!
# The lock of the network driver

`rt_eth_tx` and `rt_eth_rx` take the semaphore `sem_lock` first and give it back at their
end.  `rt_eth_tx` has four more returns, and none of them gives it back: then the
semaphore stays at zero, and every later call of either function waits for good.

Main results:

- Theorems `Driver.ethTx_cases`, `Driver.transmit_cases`, `Driver.ethRx_cases` and
  `Driver.receive_cases`: what a step of the driver is.
- Theorems `Driver.Kept.step` and `Driver.Lost.step`: which steps lose the semaphore, and
  that none brings it back.
- Theorem `semLock_iff`: the runs between whose calls the semaphore is free.
-/

namespace Ls2kMorse
namespace Net

open Lib Lib.Trace

/-- Where `dev->priv` leads to: to nothing, to an adapter without a device structure, or
to the device. -/
inductive EthDevice where
  | noAdapter
  | noDevice
  | attached
deriving Repr, DecidableEq

/-- Both directions of the driver and its semaphore. -/
structure Driver where
  tx : Transmission
  rx : Reception
  semLock : Nat

/-- What happens next: a call of `rt_eth_tx` or `rt_eth_rx`, or a later step of the call
or of the DMA in one of the directions. -/
inductive Access where
  | ethTx (device : EthDevice) (p : List UInt8)
  | ethRx (pbufAlloc : Bool)
  | transmit (e : Event)
  | receive (e : RxEvent)

/-- The number of calls of `rt_eth_tx` under way. -/
def Phase.calls : Phase → Nat
  | .returned _ => 0
  | _ => 1

/-- The number of calls of `rt_eth_rx` under way. -/
def RxPhase.calls : RxPhase → Nat
  | .returned _ => 0
  | _ => 1

/-- The beginning of `rt_eth_tx`: `rt_sem_take`, which waits on zero, and the tests for the
device, which return without `rt_sem_release`. -/
def Driver.ethTx (dmaMap : Nat → BitVec 32) (s : Driver) (device : EthDevice)
    (p : List UInt8) : Option Driver :=
  if s.semLock = 0 ∨ s.tx.phase.calls = 1 then none
  else
    let s' := { s with semLock := s.semLock - 1 }
    if device = .noAdapter then
      some { s' with tx := { s.tx with phase := .returned (some (-1)) } }
    else if device = .noDevice then
      some { s' with tx := { s.tx with phase := .returned (some (-1)) } }
    else (step dmaMap s.tx (.call p)).map fun tx => { s' with tx := tx }

/-- The later steps of `rt_eth_tx`; `rt_sem_release` follows its loop only. -/
def Driver.transmit (dmaMap : Nat → BitVec 32) (s : Driver) : Event → Option Driver
  | .call _ => none
  | .getQptr => (step dmaMap s.tx .getQptr).map fun tx =>
      { s with tx := tx, semLock := s.semLock + (1 - tx.phase.calls) }
  | .allocMemory pbuf => (step dmaMap s.tx (.allocMemory pbuf)).map fun tx => { s with tx := tx }
  | .setQptr => (step dmaMap s.tx .setQptr).map fun tx => { s with tx := tx }
  | .dma i status => (step dmaMap s.tx (.dma i status)).map fun tx => { s with tx := tx }

/-- The beginning of `rt_eth_rx`: `rt_sem_take`, and `rt_sem_release` when it returns at
once. -/
def Driver.ethRx (dmaMap : Nat → BitVec 32) (s : Driver) (pbufAlloc : Bool) : Option Driver :=
  if s.semLock = 0 then none
  else (Reception.step dmaMap s.rx (.call pbufAlloc)).map fun rx =>
    { s with rx := rx, semLock := s.semLock - 1 + (1 - rx.phase.calls) }

/-- Its later steps; `rt_sem_release` follows the refill. -/
def Driver.receive (dmaMap : Nat → BitVec 32) (s : Driver) : RxEvent → Option Driver
  | .call _ => none
  | .setQptr => (Reception.step dmaMap s.rx .setQptr).map fun rx =>
      { s with rx := rx, semLock := s.semLock + 1 }
  | .dma i c => (Reception.step dmaMap s.rx (.dma i c)).map fun rx => { s with rx := rx }

/-- One step of the driver or of the DMA. -/
def Driver.step (dmaMap : Nat → BitVec 32) (s : Driver) : Access → Option Driver
  | .ethTx device p => s.ethTx dmaMap device p
  | .ethRx pbufAlloc => s.ethRx dmaMap pbufAlloc
  | .transmit e => s.transmit dmaMap e
  | .receive e => s.receive dmaMap e

/-- The state after `rt_hw_eth_init`, which makes the semaphore with the count 1, and
`eth_init`. -/
def Driver.init (tx : Transmission) (rx : Reception) : Driver where
  tx := tx
  rx := rx
  semLock := 1

/-- The condition on a step: a call finds the device, and a descriptor at `txNextDesc` that
the DMA owns or that is empty; an allocation succeeds. -/
def KeepsLock (s : Driver) : Access → Prop
  | .ethTx device _ => device = .attached ∧
      (isDescOwnedByDma (s.tx.gmacdev.mem s.tx.gmacdev.txNextDesc) = true ∨
        isDescEmpty (s.tx.gmacdev.mem s.tx.gmacdev.txNextDesc) = true)
  | .transmit (.allocMemory pbuf) => pbuf ≠ 0
  | _ => True

/-! ## What one step does -/

section Cases

variable {dmaMap : Nat → BitVec 32} {s s' : Driver}

/-- A phase of the transmitter holds at most one call. -/
theorem calls_le (phase : Phase) : phase.calls ≤ 1 := by
  cases phase <;> exact Nat.le_of_ble_eq_true rfl

/-- A phase of the receiver holds at most one call. -/
theorem rxCalls_le (phase : RxPhase) : phase.calls ≤ 1 := by
  cases phase <;> exact Nat.le_of_ble_eq_true rfl

/-- A call of `rt_eth_tx` begins when the semaphore is free, and without a device returns
at once. -/
theorem Driver.ethTx_cases {device : EthDevice} {p : List UInt8}
    (hstep : s.ethTx dmaMap device p = some s') :
    s.semLock ≠ 0 ∧ s.tx.phase.calls = 0 ∧
      ((device ≠ .attached ∧ s' =
          { s with
            tx := { s.tx with phase := .returned (some (-1)) }
            semLock := s.semLock - 1 }) ∨
        (device = .attached ∧ ∃ tx, Net.step dmaMap s.tx (.call p) = some tx ∧
          s' = { s with tx := tx, semLock := s.semLock - 1 })) := by
  unfold Driver.ethTx at hstep
  rw [Option.ite_none_left_eq_some, not_or] at hstep
  rcases hstep with ⟨⟨hfree, hcalls⟩, hstep⟩
  have hidle : s.tx.phase.calls = 0 := by
    have hle := calls_le s.tx.phase
    omega
  refine ⟨hfree, hidle, ?_⟩
  cases device with
  | attached =>
      rw [if_neg (by decide), if_neg (by decide), Option.map_eq_some_iff] at hstep
      rcases hstep with ⟨tx, htx, hs'⟩
      exact Or.inr ⟨rfl, tx, htx, hs'.symm⟩
  | noAdapter =>
      rw [if_pos rfl, Option.some.injEq] at hstep
      exact Or.inl ⟨EthDevice.noConfusion, hstep.symm⟩
  | noDevice =>
      rw [if_neg (by decide), if_pos rfl, Option.some.injEq] at hstep
      exact Or.inl ⟨EthDevice.noConfusion, hstep.symm⟩

/-- Of the later steps of a call only the end of its loop gives the semaphore back. -/
theorem Driver.transmit_cases {e : Event} (hstep : s.transmit dmaMap e = some s') :
    (∀ p, e ≠ .call p) ∧ ∃ tx, Net.step dmaMap s.tx e = some tx ∧
      ((e = .getQptr ∧ s' =
          { s with tx := tx, semLock := s.semLock + (1 - tx.phase.calls) }) ∨
        (e ≠ .getQptr ∧ s' = { s with tx := tx })) := by
  cases e with
  | call p => exact absurd hstep.symm (Option.some_ne_none s')
  | getQptr =>
      rw [Driver.transmit, Option.map_eq_some_iff] at hstep
      rcases hstep with ⟨tx, htx, hs'⟩
      exact ⟨fun _ => Event.noConfusion, tx, htx, Or.inl ⟨rfl, hs'.symm⟩⟩
  | _ =>
      rw [Driver.transmit, Option.map_eq_some_iff] at hstep
      rcases hstep with ⟨tx, htx, hs'⟩
      exact ⟨fun _ => Event.noConfusion, tx, htx, Or.inr ⟨Event.noConfusion, hs'.symm⟩⟩

/-- A call of `rt_eth_rx` begins when the semaphore is free, and gives it back when it
returns at once. -/
theorem Driver.ethRx_cases {pbufAlloc : Bool} (hstep : s.ethRx dmaMap pbufAlloc = some s') :
    s.semLock ≠ 0 ∧ ∃ rx, Reception.step dmaMap s.rx (.call pbufAlloc) = some rx ∧
      s' = { s with rx := rx, semLock := s.semLock - 1 + (1 - rx.phase.calls) } := by
  rw [Driver.ethRx, Option.ite_none_left_eq_some, Option.map_eq_some_iff] at hstep
  rcases hstep with ⟨hfree, rx, hrx, hs'⟩
  exact ⟨hfree, rx, hrx, hs'.symm⟩

/-- A step of the receiver, and what it does to the lock. -/
theorem Driver.receive_cases {e : RxEvent} (hstep : s.receive dmaMap e = some s') :
    ∃ rx, Reception.step dmaMap s.rx e = some rx ∧
      ((e = .setQptr ∧ s' = { s with rx := rx, semLock := s.semLock + 1 }) ∨
        ((∃ i c, e = .dma i c) ∧ s' = { s with rx := rx })) := by
  cases e with
  | call pbufAlloc => exact absurd hstep.symm (Option.some_ne_none s')
  | setQptr =>
      rw [Driver.receive, Option.map_eq_some_iff] at hstep
      rcases hstep with ⟨rx, hrx, hs'⟩
      exact ⟨rx, hrx, Or.inl ⟨rfl, hs'.symm⟩⟩
  | dma i c =>
      rw [Driver.receive, Option.map_eq_some_iff] at hstep
      rcases hstep with ⟨rx, hrx, hs'⟩
      exact ⟨rx, hrx, Or.inr ⟨⟨i, c, rfl⟩, hs'.symm⟩⟩

/-- Which step of the transmit side a step of the driver is: the beginning of a call, its
return without a device, a later step, or none. -/
theorem Driver.tx_cases {a : Access} (hstep : s.step dmaMap a = some s') :
    (∃ p, a = .ethTx .attached p ∧ Net.step dmaMap s.tx (.call p) = some s'.tx) ∨
      (∃ device p, a = .ethTx device p ∧ device ≠ .attached ∧ s.tx.phase.calls = 0 ∧
        s'.tx = { s.tx with phase := .returned (some (-1)) }) ∨
      (∃ e, a = .transmit e ∧ (∀ p, e ≠ .call p) ∧ Net.step dmaMap s.tx e = some s'.tx) ∨
      ((∀ device p, a ≠ .ethTx device p) ∧ (∀ e, a ≠ .transmit e) ∧ s'.tx = s.tx) := by
  cases a with
  | ethTx device p =>
      rcases Driver.ethTx_cases hstep with ⟨-, hidle, ⟨hdevice, hs'⟩ | ⟨hdevice, tx, htx, hs'⟩⟩
      · right; left
        exact ⟨device, p, rfl, hdevice, hidle, by rw [hs']⟩
      · left
        exact ⟨p, by rw [hdevice], by rw [hs']; exact htx⟩
  | transmit e =>
      right; right; left
      rcases Driver.transmit_cases hstep with ⟨hcall, tx, htx, ⟨-, hs'⟩ | ⟨-, hs'⟩⟩
      · exact ⟨e, rfl, hcall, by rw [hs']; exact htx⟩
      · exact ⟨e, rfl, hcall, by rw [hs']; exact htx⟩
  | ethRx pbufAlloc =>
      right; right; right
      rcases Driver.ethRx_cases hstep with ⟨-, rx, -, hs'⟩
      exact ⟨fun _ _ => Access.noConfusion, fun _ => Access.noConfusion, by rw [hs']⟩
  | receive e =>
      right; right; right
      rcases Driver.receive_cases hstep with ⟨rx, -, ⟨-, hs'⟩ | ⟨-, hs'⟩⟩
      · exact ⟨fun _ _ => Access.noConfusion, fun _ => Access.noConfusion, by rw [hs']⟩
      · exact ⟨fun _ _ => Access.noConfusion, fun _ => Access.noConfusion, by rw [hs']⟩

/-- A step of the driver is one of the receive side, or leaves that side. -/
theorem Driver.rx_cases {a : Access} (hstep : s.step dmaMap a = some s') :
    s'.rx = s.rx ∨ ∃ e, Reception.step dmaMap s.rx e = some s'.rx := by
  cases a with
  | ethTx device p =>
      left
      rcases Driver.ethTx_cases hstep with ⟨-, -, ⟨-, hs'⟩ | ⟨-, tx, -, hs'⟩⟩
      · rw [hs']
      · rw [hs']
  | transmit e =>
      left
      rcases Driver.transmit_cases hstep with ⟨-, tx, -, ⟨-, hs'⟩ | ⟨-, hs'⟩⟩
      · rw [hs']
      · rw [hs']
  | ethRx pbufAlloc =>
      right
      rcases Driver.ethRx_cases hstep with ⟨-, rx, hrx, hs'⟩
      exact ⟨.call pbufAlloc, by rw [hs']; exact hrx⟩
  | receive e =>
      right
      rcases Driver.receive_cases hstep with ⟨rx, hrx, ⟨-, hs'⟩ | ⟨-, hs'⟩⟩
      · exact ⟨e, by rw [hs']; exact hrx⟩
      · exact ⟨e, by rw [hs']; exact hrx⟩

end Cases

/-! ## What one step does to the semaphore -/

/-- A call of `rt_eth_tx` has still to fill a descriptor. -/
def Phase.isFilling : Phase → Bool
  | .allocating _ => true
  | .queueing _ _ => true
  | _ => false

/-- The semaphore is free or a call that is under way will give it back. -/
structure Driver.Kept (s : Driver) : Prop where
  balance : s.semLock + s.tx.phase.calls + s.rx.phase.calls = 1
  room : s.tx.phase.isFilling = true →
    isDescEmpty (s.tx.gmacdev.mem s.tx.gmacdev.txNextDesc) = true

/-- The semaphore is taken, and if a call of `rt_eth_tx` is under way it will not give it
back. -/
structure Driver.Lost (s : Driver) : Prop where
  taken : s.semLock = 0
  idle : s.rx.phase.calls = 0
  full : s.tx.phase.calls = 1 → s.tx.phase.isFilling = true ∧
    isDescEmpty (s.tx.gmacdev.mem s.tx.gmacdev.txNextDesc) = false

section Step

variable {dmaMap : Nat → BitVec 32} {s s' : Driver}

/-- What a step of the transmit side does when it is neither the beginning nor the loop of
a call. -/
theorem transmit_step_cases {tx tx' : Transmission} {e : Event} (hcall : ∀ p, e ≠ .call p)
    (hloop : e ≠ .getQptr) (hstep : step dmaMap tx e = some tx') :
    (∃ p, tx.phase = .allocating p ∧ e = .allocMemory 0 ∧ tx'.phase = .returned (some (-1))) ∨
      (∃ p pbuf, tx.phase = .allocating p ∧ e = .allocMemory pbuf ∧ pbuf ≠ 0 ∧
        tx'.phase = .queueing p pbuf ∧ tx'.gmacdev = tx.gmacdev) ∨
      (∃ p pbuf, tx.phase = .queueing p pbuf ∧ e = .setQptr ∧
        ((isDescEmpty (tx.gmacdev.mem tx.gmacdev.txNextDesc) = true ∧ tx'.phase = .reclaiming) ∨
          (isDescEmpty (tx.gmacdev.mem tx.gmacdev.txNextDesc) = false ∧
            tx'.phase = .returned (some (-16))))) ∨
      (∃ i status, e = .dma i status ∧ tx'.phase = tx.phase ∧
        isDescEmpty (tx'.gmacdev.mem tx'.gmacdev.txNextDesc) =
          isDescEmpty (tx.gmacdev.mem tx.gmacdev.txNextDesc)) := by
  cases e with
  | call p => exact absurd rfl (hcall p)
  | getQptr => exact absurd rfl hloop
  | allocMemory pbuf =>
      rcases step_allocMemory hstep with ⟨p, hphase, halloc⟩
      rcases Transmission.allocMemory_cases halloc with ⟨hzero, htx'⟩ | ⟨hne, -, htx'⟩
      · left
        exact ⟨p, hphase, by rw [hzero], by rw [htx']⟩
      · right; left
        exact ⟨p, pbuf, hphase, rfl, hne, by rw [htx'], by rw [htx']⟩
  | setQptr =>
      rcases step_setQptr hstep with ⟨p, pbuf, hphase, htx'⟩
      rw [htx']
      right; right; left
      refine ⟨p, pbuf, hphase, rfl, ?_⟩
      cases hempty : isDescEmpty (tx.gmacdev.mem tx.gmacdev.txNextDesc) with
      | true => exact Or.inl ⟨rfl, by rw [Transmission.setQptr_of_empty dmaMap p pbuf hempty]⟩
      | false => exact Or.inr ⟨rfl, by rw [Transmission.setQptr_of_full dmaMap p pbuf hempty]⟩
  | dma i status =>
      rcases step_dma hstep with ⟨-, dev, hwrite, htx'⟩
      right; right; right
      refine ⟨i, status, rfl, by rw [htx'], ?_⟩
      have hnext := (dmaWrite_store hwrite).2.2
      rw [htx']
      show isDescEmpty (dev.mem dev.txNextDesc) = _
      rw [dmaWrite_empty hwrite, hnext]
      rfl

/-- The refill ends the call. -/
theorem setQptr_phase {rx rx' : Reception} (hstep : Reception.step dmaMap rx .setQptr = some rx') :
    rx.phase.calls = 1 ∧ rx'.phase.calls = 0 := by
  rcases Reception.step_setQptr hstep with ⟨pbuf, dmaAddr1, data1, hphase, hrx'⟩
  rw [hphase, hrx']
  exact ⟨rfl, rfl⟩

/-- The DMA does not touch the call. -/
theorem complete_phase {rx rx' : Reception} {i : Nat} {c : Completion}
    (hstep : Reception.step dmaMap rx (.dma i c) = some rx') : rx'.phase = rx.phase := by
  unfold Reception.step Reception.complete at hstep
  rw [Option.ite_none_right_eq_some, Option.some.injEq] at hstep
  rw [← hstep.2]

/-- The semaphore stays kept when the transmit side goes on with its call. -/
theorem Driver.Kept.of_tx (h : s.Kept) {tx : Transmission}
    (hcalls : tx.phase.calls = s.tx.phase.calls)
    (hroom : tx.phase.isFilling = true →
      isDescEmpty (tx.gmacdev.mem tx.gmacdev.txNextDesc) = true) :
    Driver.Kept { s with tx := tx } := by
  refine ⟨?_, hroom⟩
  show s.semLock + tx.phase.calls + s.rx.phase.calls = 1
  rw [hcalls]
  exact h.balance

/-- It is lost when a call ends without giving it back. -/
theorem Driver.Kept.lost_of_returned (h : s.Kept) (hbusy : s.tx.phase.calls = 1)
    {tx : Transmission} (hidle : tx.phase.calls = 0) : Driver.Lost { s with tx := tx } := by
  have hbalance := h.balance
  refine ⟨?_, ?_, ?_⟩
  · show s.semLock = 0
    omega
  · show s.rx.phase.calls = 0
    omega
  · intro hcalls
    exact absurd (hidle.symm.trans hcalls) Nat.zero_ne_one

/-- A call of `rt_eth_tx` keeps the semaphore when it meets the condition. -/
theorem Driver.Kept.ethTx (h : s.Kept) {device : EthDevice} {p : List UInt8}
    (hstep : s.ethTx dmaMap device p = some s') :
    (KeepsLock s (.ethTx device p) ∧ s'.Kept) ∨ (¬ KeepsLock s (.ethTx device p) ∧ s'.Lost) := by
  have hbalance := h.balance
  rcases Driver.ethTx_cases hstep with ⟨hfree, hidle, hcases⟩
  have hsem : s.semLock - 1 = 0 := by omega
  have hrx : s.rx.phase.calls = 0 := by omega
  rcases hcases with ⟨hdevice, hs'⟩ | ⟨hdevice, tx, htx, hs'⟩
  · rw [hs']
    refine Or.inr ⟨fun hkeeps => hdevice hkeeps.1, hsem, hrx, ?_⟩
    intro hcall
    exact absurd hcall Nat.zero_ne_one
  · rw [hs']
    rcases step_call htx with ⟨status, -, hcall⟩
    rcases Transmission.call_cases hcall with ⟨howned, htx'⟩ | ⟨hnot, htx'⟩
    · rw [htx']
      refine Or.inl ⟨⟨hdevice, Or.inl howned⟩, ?_, ?_⟩
      · show s.semLock - 1 + 1 + s.rx.phase.calls = 1
        rw [hsem, hrx]
      · intro hfilling
        exact absurd hfilling Bool.false_ne_true
    · rw [htx']
      cases hempty : isDescEmpty (s.tx.gmacdev.mem s.tx.gmacdev.txNextDesc) with
      | true =>
          refine Or.inl ⟨⟨hdevice, Or.inr hempty⟩, ?_, ?_⟩
          · show s.semLock - 1 + 1 + s.rx.phase.calls = 1
            rw [hsem, hrx]
          · intro _
            exact hempty
      | false =>
          refine Or.inr ⟨?_, hsem, hrx, ?_⟩
          · intro hkeeps
            have hneither := hkeeps.2
            rw [hnot, hempty, or_self] at hneither
            exact Bool.false_ne_true hneither
          · intro _
            exact ⟨rfl, hempty⟩

/-- A later step of `rt_eth_tx` keeps it unless an allocation fails. -/
theorem Driver.Kept.transmit (h : s.Kept) {e : Event} (hstep : s.transmit dmaMap e = some s') :
    (KeepsLock s (.transmit e) ∧ s'.Kept) ∨ (¬ KeepsLock s (.transmit e) ∧ s'.Lost) := by
  have hbalance := h.balance
  rcases Driver.transmit_cases hstep with ⟨hcall, tx, htx, ⟨hloop, hs'⟩ | ⟨hloop, hs'⟩⟩
  · rw [hloop] at htx ⊢
    rcases step_getQptr htx with ⟨hphase, htx'⟩
    rw [hphase] at hbalance
    rw [hs', htx']
    refine Or.inl ⟨trivial, ?_, ?_⟩
    · show s.semLock + (1 - s.tx.getQptr.phase.calls) + s.tx.getQptr.phase.calls +
        s.rx.phase.calls = 1
      have hle := calls_le s.tx.getQptr.phase
      have hone : Phase.reclaiming.calls = 1 := rfl
      omega
    · intro hfilling
      rcases Transmission.getQptr_phase hphase with hend | hgo
      · rw [show s.tx.getQptr.phase = _ from hend] at hfilling
        exact absurd hfilling Bool.false_ne_true
      · rw [show s.tx.getQptr.phase = _ from hgo] at hfilling
        exact absurd hfilling Bool.false_ne_true
  · rw [hs']
    rcases transmit_step_cases hcall hloop htx with
      ⟨p, hphase, he, hnext⟩ | ⟨p, pbuf, hphase, he, hne, hnext, hdev⟩ |
        ⟨p, pbuf, hphase, he, ⟨hempty, hnext⟩ | ⟨hfull, hnext⟩⟩ | ⟨i, status, he, hsame, hempty⟩
    · rw [he]
      refine Or.inr ⟨fun hkeeps => hkeeps rfl, h.lost_of_returned ?_ ?_⟩
      · rw [hphase]
        rfl
      · rw [hnext]
        rfl
    · have hroom := h.room
      rw [hphase] at hroom
      rw [he]
      refine Or.inl ⟨hne, h.of_tx ?_ ?_⟩
      · rw [hnext, hphase]
        rfl
      · intro _
        rw [hdev]
        exact hroom rfl
    · rw [he]
      refine Or.inl ⟨trivial, h.of_tx ?_ ?_⟩
      · rw [hnext, hphase]
        rfl
      · intro hfilling
        rw [hnext] at hfilling
        exact absurd hfilling Bool.false_ne_true
    · -- the descriptor is still the empty one that the call has found
      have hroom := h.room
      rw [hphase] at hroom
      exact absurd (hfull.symm.trans (hroom rfl)) Bool.false_ne_true
    · rw [he]
      refine Or.inl ⟨trivial, h.of_tx (congrArg Phase.calls hsame) ?_⟩
      intro hfilling
      rw [hsame] at hfilling
      rw [hempty]
      exact h.room hfilling

/-- A call of `rt_eth_rx` keeps it. -/
theorem Driver.Kept.ethRx (h : s.Kept) {pbufAlloc : Bool}
    (hstep : s.ethRx dmaMap pbufAlloc = some s') : s'.Kept := by
  have hbalance := h.balance
  rcases Driver.ethRx_cases hstep with ⟨hfree, rx, -, hs'⟩
  rw [hs']
  refine ⟨?_, h.room⟩
  show s.semLock - 1 + (1 - rx.phase.calls) + s.tx.phase.calls + rx.phase.calls = 1
  have hle := rxCalls_le rx.phase
  omega

/-- A later step of `rt_eth_rx` keeps it. -/
theorem Driver.Kept.receive (h : s.Kept) {e : RxEvent} (hstep : s.receive dmaMap e = some s') :
    s'.Kept := by
  have hbalance := h.balance
  rcases Driver.receive_cases hstep with ⟨rx, hrx, ⟨he, hs'⟩ | ⟨⟨i, c, he⟩, hs'⟩⟩
  · rw [he] at hrx
    rcases setQptr_phase hrx with ⟨hbefore, hafter⟩
    rw [hs']
    refine ⟨?_, h.room⟩
    show s.semLock + 1 + s.tx.phase.calls + rx.phase.calls = 1
    omega
  · rw [he] at hrx
    rw [hs']
    refine ⟨?_, h.room⟩
    show s.semLock + s.tx.phase.calls + rx.phase.calls = 1
    rw [complete_phase hrx]
    exact hbalance

/-- Every step keeps the semaphore when it meets the condition, and loses it otherwise. -/
theorem Driver.Kept.step (h : s.Kept) {a : Access} (hstep : s.step dmaMap a = some s') :
    (KeepsLock s a ∧ s'.Kept) ∨ (¬ KeepsLock s a ∧ s'.Lost) := by
  cases a with
  | ethTx device p => exact h.ethTx hstep
  | ethRx pbufAlloc => exact Or.inl ⟨trivial, h.ethRx hstep⟩
  | transmit e => exact h.transmit hstep
  | receive e => exact Or.inl ⟨trivial, h.receive hstep⟩

/-- A semaphore that is lost stays so, and lets no call begin. -/
theorem Driver.Lost.step (h : s.Lost) {a : Access} (hstep : s.step dmaMap a = some s') :
    s'.Lost := by
  cases a with
  | ethTx device p =>
      rcases Driver.ethTx_cases hstep with ⟨hfree, -⟩
      exact absurd h.taken hfree
  | ethRx pbufAlloc =>
      rcases Driver.ethRx_cases hstep with ⟨hfree, -⟩
      exact absurd h.taken hfree
  | transmit e =>
      have hfull := h.full
      rcases Driver.transmit_cases hstep with ⟨hcall, tx, htx, ⟨hloop, hs'⟩ | ⟨hloop, hs'⟩⟩
      · rw [hloop] at htx
        -- a call that holds the lost semaphore has not come as far
        rw [(step_getQptr htx).1] at hfull
        exact absurd (hfull rfl).1 Bool.false_ne_true
      · rw [hs']
        rcases transmit_step_cases hcall hloop htx with
          ⟨p, hphase, he, hnext⟩ | ⟨p, pbuf, hphase, he, hne, hnext, hdev⟩ |
            ⟨p, pbuf, hphase, he, ⟨hempty, hnext⟩ | ⟨-, hnext⟩⟩ | ⟨i, status, he, hsame, hempty⟩
        · refine ⟨h.taken, h.idle, ?_⟩
          intro hcalls
          rw [show tx.phase = _ from hnext] at hcalls
          exact absurd hcalls Nat.zero_ne_one
        · rw [hphase] at hfull
          refine ⟨h.taken, h.idle, ?_⟩
          intro _
          show tx.phase.isFilling = true ∧ isDescEmpty (tx.gmacdev.mem tx.gmacdev.txNextDesc) = false
          rw [hnext, hdev]
          exact hfull rfl
        · rw [hphase] at hfull
          exact absurd ((hfull rfl).2.symm.trans hempty) Bool.false_ne_true
        · refine ⟨h.taken, h.idle, ?_⟩
          intro hcalls
          rw [show tx.phase = _ from hnext] at hcalls
          exact absurd hcalls Nat.zero_ne_one
        · refine ⟨h.taken, h.idle, ?_⟩
          show tx.phase.calls = 1 → tx.phase.isFilling = true ∧
            isDescEmpty (tx.gmacdev.mem tx.gmacdev.txNextDesc) = false
          rw [hsame, hempty]
          exact hfull
  | receive e =>
      have hidle := h.idle
      rcases Driver.receive_cases hstep with ⟨rx, hrx, ⟨he, hs'⟩ | ⟨⟨i, c, he⟩, hs'⟩⟩
      · rw [he] at hrx
        rw [(setQptr_phase hrx).1] at hidle
        exact absurd hidle Nat.one_ne_zero
      · rw [he] at hrx
        rw [hs']
        refine ⟨h.taken, ?_, h.full⟩
        show rx.phase.calls = 0
        rw [complete_phase hrx]
        exact hidle

end Step

/-! ## The semaphore between the calls -/

section Run

variable {dmaMap : Nat → BitVec 32} {mem rxMem : Nat → DmaDesc} {heap : Nat → List UInt8}
  {rxHeap : Nat → Nat → UInt8} {firstDesc rxFirstDesc : Nat} {skbs : List Nat} {rx : Reception}

/-- The receiver starts outside any call. -/
theorem receiveInit_phase
    (hstart : receiveInit dmaMap rxMem rxHeap rxFirstDesc skbs = some rx) :
    rx.phase = .returned none := by
  rcases Option.map_eq_some_iff.mp hstart with ⟨r, -, hrx⟩
  rw [← hrx]
  rfl

/-- In every run from `eth_init` on, the semaphore is as free between the calls as at the
start exactly when every call finds the device and a descriptor that is empty or with the
DMA, and no allocation fails. -/
theorem semLock_iff (hstart : receiveInit dmaMap rxMem rxHeap rxFirstDesc skbs = some rx)
    {accesses : List Access} {t : Driver}
    (hrun : run (Driver.step dmaMap) (Driver.init (ethInit mem heap firstDesc) rx) accesses =
      some t) (htx : t.tx.phase.calls = 0) (hrx : t.rx.phase.calls = 0) :
    t.semLock = (Driver.init (ethInit mem heap firstDesc) rx).semLock ↔
      AlongRun (Driver.step dmaMap) KeepsLock (Driver.init (ethInit mem heap firstDesc) rx)
        accesses := by
  have hinit : (Driver.init (ethInit mem heap firstDesc) rx).Kept := by
    refine ⟨?_, ?_⟩
    · show 1 + 0 + rx.phase.calls = 1
      rw [receiveInit_phase hstart]
      rfl
    · intro hfilling
      exact absurd hfilling Bool.false_ne_true
  have hsplit := run_kept_or_lost (fun s a s' hs hstep => Driver.Kept.step hs hstep)
    (fun s a s' hs hstep => Driver.Lost.step hs hstep) hinit hrun
  rcases hsplit with ⟨halong, hkept⟩ | ⟨hnot, hlost⟩
  · have hbalance := hkept.balance
    rw [htx, hrx] at hbalance
    exact iff_of_true hbalance halong
  · have hzero := hlost.taken
    refine iff_of_false ?_ hnot
    intro hone
    exact Nat.zero_ne_one (hzero.symm.trans hone)

end Run

/-- A frame is queued and a call of `rt_eth_rx` finds nothing. -/
theorem semLock_one_frame : ∃ rx t,
    receiveInit (fun skb => BitVec.ofNat 32 skb) (fun _ => rxDescInitRing false) (fun _ _ => 0)
        8192 [] = some rx ∧
      run (Driver.step fun pbuf => BitVec.ofNat 32 pbuf)
        (Driver.init (ethInit (fun _ => txDescInitRing false) (fun _ => []) 4096) rx)
        [.ethTx .attached [1, 2], .transmit (.allocMemory 640), .transmit .setQptr,
          .transmit .getQptr, .ethRx true] = some t ∧
      (t.semLock = 1 ↔ AlongRun (Driver.step fun pbuf => BitVec.ofNat 32 pbuf) KeepsLock
        (Driver.init (ethInit (fun _ => txDescInitRing false) (fun _ => []) 4096) rx)
        [.ethTx .attached [1, 2], .transmit (.allocMemory 640), .transmit .setQptr,
          .transmit .getQptr, .ethRx true]) := by
  have hrun : (receiveInit (fun skb => BitVec.ofNat 32 skb) (fun _ => rxDescInitRing false)
      (fun _ _ => 0) 8192 []).bind (fun rx =>
        (run (Driver.step fun pbuf => BitVec.ofNat 32 pbuf)
          (Driver.init (ethInit (fun _ => txDescInitRing false) (fun _ => []) 4096) rx)
          [.ethTx .attached [1, 2], .transmit (.allocMemory 640), .transmit .setQptr,
            .transmit .getQptr, .ethRx true]).map fun t => (t.tx.phase.calls, t.rx.phase.calls)) =
      some (0, 0) := by decide
  rcases Option.bind_eq_some_iff.mp hrun with ⟨rx, hstart, hmap⟩
  rcases Option.map_eq_some_iff.mp hmap with ⟨t, ht, heq⟩
  rw [Prod.mk.injEq] at heq
  exact ⟨rx, t, hstart, ht, semLock_iff hstart ht heq.1 heq.2⟩

/-- After a failed allocation the semaphore stays taken, and both functions wait. -/
theorem ethTx_keeps_semLock_taken : ∃ rx t,
    receiveInit (fun skb => BitVec.ofNat 32 skb) (fun _ => rxDescInitRing false) (fun _ _ => 0)
        8192 [] = some rx ∧
      run (Driver.step fun pbuf => BitVec.ofNat 32 pbuf)
        (Driver.init (ethInit (fun _ => txDescInitRing false) (fun _ => []) 4096) rx)
        [.ethTx .attached [1, 2], .transmit (.allocMemory 0)] = some t ∧
      t.tx.phase = .returned (some (-1)) ∧ t.rx.phase = .returned none ∧ t.semLock = 0 ∧
      (∀ device p, t.step (fun pbuf => BitVec.ofNat 32 pbuf) (.ethTx device p) = none) ∧
      ∀ pbufAlloc, t.step (fun pbuf => BitVec.ofNat 32 pbuf) (.ethRx pbufAlloc) = none := by
  have hrun : (receiveInit (fun skb => BitVec.ofNat 32 skb) (fun _ => rxDescInitRing false)
      (fun _ _ => 0) 8192 []).bind (fun rx =>
        (run (Driver.step fun pbuf => BitVec.ofNat 32 pbuf)
          (Driver.init (ethInit (fun _ => txDescInitRing false) (fun _ => []) 4096) rx)
          [.ethTx .attached [1, 2], .transmit (.allocMemory 0)]).map
            fun t => (t.tx.phase, t.rx.phase, t.semLock)) =
      some (.returned (some (-1)), .returned none, 0) := by decide
  rcases Option.bind_eq_some_iff.mp hrun with ⟨rx, hstart, hmap⟩
  rcases Option.map_eq_some_iff.mp hmap with ⟨t, ht, heq⟩
  rw [Prod.mk.injEq, Prod.mk.injEq] at heq
  rcases heq with ⟨htx, hrx, hsem⟩
  refine ⟨rx, t, hstart, ht, htx, hrx, hsem, ?_, ?_⟩
  · intro device p
    exact if_pos (Or.inl hsem)
  · intro pbufAlloc
    exact if_pos hsem

end Net
end Ls2kMorse
