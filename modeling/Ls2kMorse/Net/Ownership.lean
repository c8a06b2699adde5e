import Ls2kMorse.Net.Lock

/-!
# The buffers of the transmit ring for frames of any length

The length field of a descriptor has 13 bits, so a frame of 8192 bytes, say, leaves its
descriptor empty: it is never taken back, and the account of `Net/Transmit.lean` does not
hold.  What holds for frames of any length is that the descriptors point to different
buffers which are all allocated, and that the addresses agree with the indices.

Main results:

- Theorem `TxOwned.step`: every step of `rt_eth_tx` and of the DMA keeps this.
- Theorem `TxUsable.run`: it holds in every run of the driver whose queue was allocated,
  and without a queue nothing is ever sent.
-/

namespace Ls2kMorse
namespace Net

open Lib Lib.Trace

/-- The buffer is allocated and not freed. -/
def Transmission.Allocated (s : Transmission) (b : Nat) : Prop :=
  s.freed.count b < s.allocated.count b

/-- The descriptors and the buffers they point to, whatever the lengths of the frames. -/
structure TxOwned (s : Transmission) : Prop where
  places : TxPlaces s.gmacdev
  live : ∀ i, i < s.gmacdev.txDescCount → (s.gmacdev.desc i).data1 ≠ 0 →
    s.Allocated (s.gmacdev.desc i).data1
  distinct : ∀ i, i < s.gmacdev.txDescCount → ∀ k, k < s.gmacdev.txDescCount →
    (s.gmacdev.desc i).data1 ≠ 0 → (s.gmacdev.desc i).data1 = (s.gmacdev.desc k).data1 → i = k
  pending : ∀ b ∈ s.phase.pending, s.Allocated b ∧
    ∀ i, i < s.gmacdev.txDescCount → (s.gmacdev.desc i).data1 ≠ b

section Step

variable {s s' : Transmission} {b : Nat}

/-- Freeing a buffer frees no other. -/
theorem Transmission.Allocated.of_freed {c : Nat} (h : s.Allocated c)
    (hallocated : s'.allocated = s.allocated) (hfreed : s'.freed.Perm (b :: s.freed))
    (hne : c ≠ b) : s'.Allocated c := by
  unfold Transmission.Allocated at h ⊢
  rw [hallocated, hfreed.count_eq, List.count_cons_of_ne hne.symm]
  exact h

/-- The phase of a call under way does not matter as long as it has no buffer of its own. -/
theorem TxOwned.of_phase (h : TxOwned s) {phase : Phase} (hpending : phase.pending = []) :
    TxOwned { s with phase := phase } := by
  refine ⟨h.places, h.live, h.distinct, ?_⟩
  intro b hb
  have hb' : b ∈ phase.pending := hb
  rw [hpending] at hb'
  exact absurd hb' List.not_mem_nil

/-- The buffer of a call is in no descriptor. -/
theorem TxOwned.allocMemory (h : TxOwned s) {p : List UInt8} {pbuf : Nat}
    (hstep : s.allocMemory p pbuf = some s') : TxOwned s' := by
  rcases Transmission.allocMemory_cases hstep with ⟨-, hs'⟩ | ⟨hnonzero, hcount, hs'⟩
  · rw [hs']
    exact h.of_phase rfl
  · have hkeeps : ∀ c, s.freed.count c ≤ s.allocated.count c → c = pbuf ∨ s.Allocated c →
        s'.Allocated c := by
      intro c hle hc
      rw [hs']
      show s.freed.count c < (s.allocated ++ [pbuf]).count c
      rw [List.count_append]
      rcases hc with hc | hc
      · rw [hc, List.count_singleton_self, hcount]
        exact Nat.lt_succ_self _
      · exact Nat.lt_add_right _ hc
    have hdev : s'.gmacdev = s.gmacdev := by rw [hs']
    refine ⟨hdev ▸ h.places, ?_, hdev ▸ h.distinct, ?_⟩
    · rw [hdev]
      intro i hi hne
      have hlive := h.live i hi hne
      exact hkeeps _ (Nat.le_of_lt hlive) (Or.inr hlive)
    · intro b hb
      have hb' : b = pbuf := by
        rw [hs'] at hb
        exact List.mem_singleton.mp hb
      rw [hb', hdev]
      refine ⟨hkeeps pbuf (Nat.le_of_eq hcount.symm) (Or.inl rfl), ?_⟩
      intro i hi heq
      -- the allocator returns no buffer that a descriptor points to
      have hlive := h.live i hi (heq ▸ hnonzero)
      rw [heq] at hlive
      exact absurd hlive (Nat.not_lt_of_le (Nat.le_of_eq hcount))

/-- The frame is dropped and its buffer freed, or the next descriptor points to it. -/
theorem TxOwned.setQptr (h : TxOwned s) {p : List UInt8} {pbuf : Nat}
    (hphase : s.phase = .queueing p pbuf) (dmaMap : Nat → BitVec 32) :
    TxOwned (s.setQptr dmaMap p pbuf) := by
  have hpending := h.pending pbuf (by rw [hphase]; exact List.mem_singleton_self pbuf)
  rcases hpending with ⟨halloc, hother⟩
  cases hempty : isDescEmpty (s.gmacdev.mem s.gmacdev.txNextDesc) with
  | false =>
      rw [Transmission.setQptr_of_full dmaMap p pbuf hempty]
      refine ⟨h.places, ?_, h.distinct, ?_⟩
      · intro i hi hne
        refine (h.live i hi hne).of_freed rfl ?_ (hother i hi)
        unfold Transmission.freed
        rw [List.map_append, ← List.append_assoc]
        exact List.perm_append_singleton _ _
      · intro b hb
        exact absurd hb List.not_mem_nil
  | true =>
      have hshape := (h.places.shape _ h.places.next_lt).fillRing (dmaMap pbuf)
        (BitVec.ofNat 32 p.length) pbuf 0 0
      rw [Transmission.setQptr_of_empty dmaMap p pbuf hempty, setTxQptr_fill h.places hempty]
      refine ⟨h.places.fill hshape, ?_, ?_, ?_⟩
      · intro i hi hne
        simp only [Device.desc_fill] at hne ⊢
        by_cases hin : i = s.gmacdev.txNext
        · rw [hin, Function.update_self]
          exact halloc
        · rw [Function.update_of_ne hin] at hne ⊢
          exact h.live i hi hne
      · intro i hi k hk hne heq
        simp only [Device.desc_fill] at hne heq
        by_cases hin : i = s.gmacdev.txNext
        · by_cases hkn : k = s.gmacdev.txNext
          · exact hin.trans hkn.symm
          · rw [hin, Function.update_self, Function.update_of_ne hkn] at heq
            exact absurd heq.symm (hother k hk)
        · rw [Function.update_of_ne hin] at hne heq
          by_cases hkn : k = s.gmacdev.txNext
          · rw [hkn, Function.update_self] at heq
            exact absurd heq (hother i hi)
          · rw [Function.update_of_ne hkn] at heq
            exact h.distinct i hi k hk hne heq
      · intro b hb
        exact absurd hb List.not_mem_nil

/-- A descriptor that points to a buffer is another one than a cleared one. -/
theorem desc_clear_of_ne_zero {dev : Device} {d : DmaDesc} (hzero : d.data1 = 0) {i : Nat}
    (hne : ((dev.clear d).desc i).data1 ≠ 0) :
    i ≠ dev.txBusy ∧ (dev.clear d).desc i = dev.desc i := by
  rw [Device.desc_clear] at hne ⊢
  have hib : i ≠ dev.txBusy := by
    intro hib
    rw [hib, Function.update_self] at hne
    exact hne hzero
  exact ⟨hib, Function.update_of_ne hib _ _⟩

/-- A finished descriptor points nowhere any more when its buffer is freed. -/
theorem TxOwned.getQptr (h : TxOwned s) (hphase : s.phase = .reclaiming) :
    TxOwned s.getQptr := by
  by_cases hstay : isDescOwnedByDma (s.gmacdev.mem s.gmacdev.txBusyDesc) = true ∨
      isDescEmpty (s.gmacdev.mem s.gmacdev.txBusyDesc) = true
  · unfold Transmission.getQptr
    rw [getTxQptr_none hstay]
    exact h.of_phase rfl
  · rw [not_or, Bool.not_eq_true, Bool.not_eq_true] at hstay
    have hrun := getTxQptr_clear h.places hstay.1 hstay.2
    have hlast := isLastTxDesc_iff h.places.txDesc_ne (h.places.shape _ h.places.busy_lt)
    have hshape := ringDesc_init (isLastTxDesc s.gmacdev (s.gmacdev.desc s.gmacdev.txBusy))
    rw [hlast] at hshape
    generalize hd : txDescInitRing (isLastTxDesc s.gmacdev (s.gmacdev.desc s.gmacdev.txBusy)) = d
      at hrun hshape
    have hzero : d.data1 = 0 := by
      rw [← hd]
      rfl
    have hdistinct : ∀ i, i < s.gmacdev.txDescCount → ∀ k, k < s.gmacdev.txDescCount →
        ((s.gmacdev.clear d).desc i).data1 ≠ 0 →
        ((s.gmacdev.clear d).desc i).data1 = ((s.gmacdev.clear d).desc k).data1 → i = k := by
      intro i hi k hk hne heq
      have hk' := (desc_clear_of_ne_zero hzero (heq ▸ hne)).2
      have hi' := (desc_clear_of_ne_zero hzero hne).2
      rw [hi'] at hne heq
      rw [hk'] at heq
      exact h.distinct i hi k hk hne heq
    have hlive : ∀ i, i < s.gmacdev.txDescCount → ((s.gmacdev.clear d).desc i).data1 ≠ 0 →
        s.Allocated ((s.gmacdev.clear d).desc i).data1 ∧
          ((s.gmacdev.clear d).desc i).data1 ≠ s.gmacdev.completed.data1 := by
      intro i hi hne
      rcases desc_clear_of_ne_zero hzero hne with ⟨hib, hi'⟩
      rw [hi'] at hne ⊢
      exact ⟨h.live i hi hne, fun heq => hib (h.distinct i hi _ h.places.busy_lt hne heq)⟩
    have hpending : ∀ b ∈ s.phase.pending, False := by
      rw [hphase]
      exact fun b hb => List.not_mem_nil hb
    by_cases hne : s.gmacdev.completed.data1 ≠ 0
    · have hgetQptr : s.getQptr =
          { s with
            gmacdev := s.gmacdev.clear d
            reclaimed := s.reclaimed ++ [s.platFreeMemory s.gmacdev.completed.data1] } := by
        unfold Transmission.getQptr
        rw [hrun]
        exact if_pos hne
      rw [hgetQptr]
      refine ⟨h.places.clear hshape, ?_, hdistinct, fun b hb => (hpending b hb).elim⟩
      intro i hi hne'
      rcases hlive i hi hne' with ⟨halloc, hother⟩
      refine halloc.of_freed rfl ?_ hother
      unfold Transmission.freed
      rw [List.map_append, List.append_assoc]
      exact List.perm_middle
    · have hgetQptr : s.getQptr = { s with gmacdev := s.gmacdev.clear d } := by
        unfold Transmission.getQptr
        rw [hrun]
        exact if_neg hne
      rw [hgetQptr]
      exact ⟨h.places.clear hshape, fun i hi hne' => (hlive i hi hne').1, hdistinct,
        fun b hb => (hpending b hb).elim⟩

/-- The DMA writes no buffer address. -/
theorem TxOwned.dma (h : TxOwned s) {i : Nat} (hi : i < s.gmacdev.txDescCount)
    {status : BitVec 32} {dev' : Device}
    (hstep : dmaWrite s.gmacdev (s.gmacdev.descAddr i) status = some dev') :
    TxOwned { s with gmacdev := dev' } := by
  rcases dmaWrite_store hstep with ⟨-, hbits, hdev⟩
  have hshape : RingDesc (i = s.gmacdev.txDescCount - 1)
      { s.gmacdev.desc i with status := status } :=
    (h.places.shape i hi).of_status hbits (h.places.shape i hi).data2_eq
  have hdata : ∀ k, (dev'.desc k).data1 = (s.gmacdev.desc k).data1 := by
    intro k
    rw [hdev, Device.desc_store]
    by_cases hki : k = i
    · rw [hki, Function.update_self]
    · rw [Function.update_of_ne hki]
  have hcount : dev'.txDescCount = s.gmacdev.txDescCount := by rw [hdev]; rfl
  refine ⟨hdev ▸ h.places.store hshape, ?_, ?_, ?_⟩
  · intro k hk hne
    simp only [hdata, hcount] at hk hne ⊢
    exact h.live k hk hne
  · intro k hk j hj hne heq
    simp only [hdata, hcount] at hk hj hne heq
    exact h.distinct k hk j hj hne heq
  · intro b hb
    simp only [hdata, hcount]
    exact h.pending b hb

/-- Every step keeps the descriptors and their buffers. -/
theorem TxOwned.step {dmaMap : Nat → BitVec 32} (h : TxOwned s) {e : Event}
    (hstep : step dmaMap s e = some s') : TxOwned s' := by
  cases e with
  | call p =>
      rcases step_call hstep with ⟨status, -, hcall⟩
      rcases Transmission.call_cases hcall with ⟨-, hs'⟩ | ⟨-, hs'⟩
      · exact hs' ▸ h.of_phase rfl
      · exact hs' ▸ h.of_phase rfl
  | allocMemory pbuf =>
      rcases step_allocMemory hstep with ⟨p, -, halloc⟩
      exact h.allocMemory halloc
  | setQptr =>
      rcases step_setQptr hstep with ⟨p, pbuf, hphase, hs'⟩
      exact hs' ▸ h.setQptr hphase dmaMap
  | getQptr =>
      rcases step_getQptr hstep with ⟨hphase, hs'⟩
      exact hs' ▸ h.getQptr hphase
  | dma i status =>
      rcases step_dma hstep with ⟨hi, dev', hwrite, hs'⟩
      exact hs' ▸ h.dma hi hwrite

end Step

/-! ## Runs of the driver -/

/-- The transmit side when the descriptors were not allocated. -/
structure NoTxQueue (s : Transmission) : Prop where
  device : ∃ mem, s.gmacdev = Device.zeroed mem
  idle : s.phase.calls = 0

/-- Without descriptors a call faults, and the DMA has nothing to do. -/
theorem NoTxQueue.step_eq_none {s : Transmission} (h : NoTxQueue s) (dmaMap : Nat → BitVec 32)
    (e : Event) : step dmaMap s e = none := by
  rcases h.device with ⟨mem, hdev⟩
  have hidle := h.idle
  cases hphase : s.phase with
  | returned status =>
      cases e with
      | call p => simp [step, hphase, Transmission.call, hdev, Device.zeroed]
      | dma i status => simp [step, hdev, Device.zeroed]
      | _ => simp [step, hphase]
  | _ =>
      rw [hphase] at hidle
      exact absurd hidle Nat.one_ne_zero

/-- The transmit side in any state that the driver reaches. -/
def TxUsable (s : Transmission) : Prop :=
  TxOwned s ∨ NoTxQueue s

/-- The initialised queue is usable. -/
theorem TxUsable.ethInit (mem : Nat → DmaDesc) (heap : Nat → List UInt8) (firstDesc : Nat) :
    TxUsable (ethInit mem heap firstDesc) := by
  by_cases hbase : firstDesc = 0
  · right
    refine ⟨⟨mem, ?_⟩, rfl⟩
    unfold Net.ethInit setupTxDescQueue
    rw [if_pos hbase]
    rfl
  · left
    have hring := (Inv.ethInit mem heap hbase).ring
    have hcount := (Inv.ethInit mem heap hbase).count
    have hzero : ∀ i, i < (Net.ethInit mem heap firstDesc).gmacdev.txDescCount →
        ((Net.ethInit mem heap firstDesc).gmacdev.desc i).data1 = 0 := by
      intro i hi
      rw [hcount] at hi
      have hdesc : (Net.ethInit mem heap firstDesc).gmacdev.desc i =
          txDescInitRing (i == TRANSMIT_DESC_SIZE - 1) := setupTxDescQueue_desc _ hbase hi
      rw [hdesc]
      rfl
    refine ⟨hring.places, ?_, ?_, ?_⟩
    · intro i hi hne
      exact absurd (hzero i hi) hne
    · intro i hi k hk hne
      exact absurd (hzero i hi) hne
    · intro b hb
      exact absurd hb List.not_mem_nil

/-- Only a queue makes steps. -/
theorem TxUsable.owned {dmaMap : Nat → BitVec 32} {s s' : Transmission} {e : Event}
    (h : TxUsable s) (hstep : Net.step dmaMap s e = some s') : TxOwned s := by
  rcases h with h | h
  · exact h
  · rw [h.step_eq_none] at hstep
    exact absurd hstep.symm (Option.some_ne_none s')

/-- A call that finds the device has begun, so there is a queue. -/
theorem TxUsable.owned_of_ethTx {dmaMap : Nat → BitVec 32} {s s' : Driver} {p : List UInt8}
    (h : TxUsable s.tx) (hstep : s.step dmaMap (.ethTx .attached p) = some s') :
    TxOwned s.tx := by
  rcases Driver.tx_cases hstep with ⟨q, -, htx⟩ | ⟨d, q, ha, hd, -⟩ | ⟨e, ha, -⟩ | ⟨ha, -⟩
  · exact h.owned htx
  · exact absurd (Access.ethTx.inj ha).1.symm hd
  · exact Access.noConfusion ha
  · exact absurd rfl (ha .attached p)

/-- Every step of the driver keeps the transmit side usable. -/
theorem TxUsable.step {dmaMap : Nat → BitVec 32} {s s' : Driver} {a : Access}
    (h : TxUsable s.tx) (hstep : s.step dmaMap a = some s') : TxUsable s'.tx := by
  rcases Driver.tx_cases hstep with ⟨p, -, htx⟩ | ⟨device, p, -, -, hidle, htx⟩ |
    ⟨e, -, -, htx⟩ | ⟨-, -, htx⟩
  · exact Or.inl ((h.owned htx).step htx)
  · rw [htx]
    rcases h with h | h
    · exact Or.inl (h.of_phase rfl)
    · exact Or.inr ⟨h.device, rfl⟩
  · exact Or.inl ((h.owned htx).step htx)
  · rw [htx]
    exact h

/-- In every run from `eth_init` on the transmit side is usable. -/
theorem TxUsable.run {dmaMap : Nat → BitVec 32} {mem : Nat → DmaDesc} {heap : Nat → List UInt8}
    {firstDesc : Nat} {rx : Reception} {accesses : List Access} {t : Driver}
    (hrun : run (Driver.step dmaMap) (Driver.init (Net.ethInit mem heap firstDesc) rx) accesses =
      some t) : TxUsable t.tx := by
  have hinit : TxUsable (Driver.init (Net.ethInit mem heap firstDesc) rx).tx :=
    TxUsable.ethInit mem heap firstDesc
  have hkeeps : ∀ (s : Driver) (a : Access) (s' : Driver), TxUsable s.tx →
      Driver.step dmaMap s a = some s' → TxUsable s'.tx :=
    fun s a s' hs hstep => TxUsable.step hs hstep
  exact run_invariant_of_forall hkeeps hinit hrun

end Net
end Ls2kMorse
