import Ls2kMorse.Net.Ownership

/-!
# What `rt_eth_tx` reports

`rt_eth_tx` returns 0 when its frame has been given to the DMA, and also when it has found
that the DMA owns the descriptor at `TxNextDesc` and has skipped the frame.  A frame of
8192 bytes or more is given to the DMA with its length cut to 13 bits.  When it returns
an error the ring is as it was.

Main results:

- Theorem `places_iff`: when the access to the queue places the frame.
- Theorems `returned_run`, `reclaiming_run`, `queueing_run` and `allocating_run`: the rest
  of a call from each of its phases.
- Theorem `ethTx_reports_iff`: the calls that report what they have done.
-/

namespace Ls2kMorse
namespace Net

open Lib Lib.Trace

/-- A step gives the DMA a descriptor with a copy of the frame and its length. -/
def Places (p : List UInt8) (s s' : Transmission) : Prop :=
  ∃ i, i < s'.gmacdev.txDescCount ∧ isDescOwnedByDma (s.gmacdev.desc i) = false ∧
    isDescOwnedByDma (s'.gmacdev.desc i) = true ∧ s'.heap (s'.gmacdev.desc i).data1 = p ∧
    ((s'.gmacdev.desc i).length &&& DescSize1Mask).toNat = p.length

/-- The ring is the same but for the status words that the DMA has written: the positions,
the descriptors and the buffers they point to. -/
structure SameFrames (s t : Transmission) : Prop where
  device : t.gmacdev = { s.gmacdev with mem := t.gmacdev.mem }
  desc : ∀ i, i < s.gmacdev.txDescCount → t.gmacdev.desc i =
    { s.gmacdev.desc i with status := (t.gmacdev.desc i).status }
  heap : ∀ i, i < s.gmacdev.txDescCount → (s.gmacdev.desc i).data1 ≠ 0 →
    t.heap (s.gmacdev.desc i).data1 = s.heap (s.gmacdev.desc i).data1

/-- A call that returns 0 has placed its frame, and one that returns an error has left the
ring as it was. -/
def Reports (dmaMap : Nat → BitVec 32) (p : List UInt8) (s : Driver) (call : List Access)
    (t : Driver) (status : Int) : Prop :=
  (status = 0 → SomeStep (Driver.step dmaMap) (fun s s' => Places p s.tx s'.tx) s call) ∧
    (status ≠ 0 → SameFrames s.tx t.tx)

section Same

variable {s t u : Transmission}

/-- A state has its own frames. -/
theorem SameFrames.refl (s : Transmission) : SameFrames s s :=
  ⟨rfl, fun _ _ => rfl, fun _ _ _ => rfl⟩

/-- Having the same frames is transitive. -/
theorem SameFrames.trans (h : SameFrames s t) (h' : SameFrames t u) : SameFrames s u := by
  have hcount : t.gmacdev.txDescCount = s.gmacdev.txDescCount := by rw [h.device]
  refine ⟨?_, ?_, ?_⟩
  · rw [h'.device, h.device]
  · intro i hi
    rw [h'.desc i (hcount.symm ▸ hi), h.desc i hi]
  · intro i hi hne
    have hdata : (t.gmacdev.desc i).data1 = (s.gmacdev.desc i).data1 := by rw [h.desc i hi]
    rw [← h.heap i hi hne, ← hdata]
    exact h'.heap i (hcount.symm ▸ hi) (hdata ▸ hne)

/-- A state with the same device, and the same contents of the buffers of the ring. -/
theorem SameFrames.of_gmacdev (hdev : t.gmacdev = s.gmacdev)
    (hheap : ∀ i, i < s.gmacdev.txDescCount → (s.gmacdev.desc i).data1 ≠ 0 →
      t.heap (s.gmacdev.desc i).data1 = s.heap (s.gmacdev.desc i).data1) : SameFrames s t :=
  ⟨by rw [hdev], fun i _ => by rw [hdev], hheap⟩

/-- The DMA writes status words only. -/
theorem SameFrames.dma {dmaMap : Nat → BitVec 32} {i : Nat} {status : BitVec 32}
    (hstep : step dmaMap s (.dma i status) = some t) :
    SameFrames s t ∧ t.phase = s.phase ∧ t.heap = s.heap := by
  rcases step_dma hstep with ⟨-, dev, hwrite, ht⟩
  rcases dmaWrite_store hwrite with ⟨-, -, hdev⟩
  rw [ht]
  refine ⟨⟨?_, ?_, fun _ _ _ => rfl⟩, rfl, rfl⟩
  · rw [hdev]
    rfl
  · intro k _
    show dev.desc k = { s.gmacdev.desc k with status := (dev.desc k).status }
    rw [hdev, Device.desc_store]
    by_cases hki : k = i
    · rw [hki, Function.update_self]
    · rw [Function.update_of_ne hki]

end Same

/-! ## The steps that place a frame -/

section Place

variable {dmaMap : Nat → BitVec 32} {s s' : Transmission} {p : List UInt8}

/-- A step that leaves the device places nothing. -/
theorem not_places_of_gmacdev (hdev : s'.gmacdev = s.gmacdev) : ¬ Places p s s' := by
  intro h
  rcases h with ⟨i, -, hfree, howned, -⟩
  rw [hdev, hfree] at howned
  exact Bool.false_ne_true howned

/-- Clearing a descriptor gives none to the DMA. -/
theorem not_places_getQptr (h : TxOwned s) : ¬ Places p s s.getQptr := by
  by_cases hstay : isDescOwnedByDma (s.gmacdev.mem s.gmacdev.txBusyDesc) = true ∨
      isDescEmpty (s.gmacdev.mem s.gmacdev.txBusyDesc) = true
  · apply not_places_of_gmacdev
    unfold Transmission.getQptr
    rw [getTxQptr_none hstay]
  · rw [not_or, Bool.not_eq_true, Bool.not_eq_true] at hstay
    have hdev : s.getQptr.gmacdev = s.gmacdev.clear
        (txDescInitRing (isLastTxDesc s.gmacdev (s.gmacdev.desc s.gmacdev.txBusy))) := by
      unfold Transmission.getQptr
      rw [getTxQptr_clear h.places hstay.1 hstay.2]
      by_cases hne : s.gmacdev.completed.data1 ≠ 0
      · exact congrArg Transmission.gmacdev (if_pos hne)
      · exact congrArg Transmission.gmacdev (if_neg hne)
    intro hplaces
    rcases hplaces with ⟨i, -, hfree, howned, -⟩
    rw [hdev, Device.desc_clear] at howned
    by_cases hib : i = s.gmacdev.txBusy
    · rw [hib, Function.update_self, (cleared_init _).2] at howned
      exact Bool.false_ne_true howned
    · rw [Function.update_of_ne hib, hfree] at howned
      exact Bool.false_ne_true howned

/-- The DMA takes no descriptor that it does not own. -/
theorem not_places_dma {i : Nat} {status : BitVec 32}
    (hstep : step dmaMap s (.dma i status) = some s') : ¬ Places p s s' := by
  rcases step_dma hstep with ⟨-, dev, hwrite, hs'⟩
  rcases dmaWrite_store hwrite with ⟨howner, -, hdev⟩
  intro hplaces
  rcases hplaces with ⟨k, -, hfree, howned, -⟩
  rw [hs'] at howned
  have howned' : isDescOwnedByDma (dev.desc k) = true := howned
  rw [hdev, Device.desc_store] at howned'
  by_cases hki : k = i
  · rw [hki, howner] at hfree
    exact Bool.false_ne_true hfree.symm
  · rw [Function.update_of_ne hki, hfree] at howned'
    exact Bool.false_ne_true howned'

/-- A filled descriptor belongs to the DMA. -/
theorem isDescOwnedByDma_fillRing (desc : DmaDesc) (buffer1 length1 : BitVec 32) (data1 : Nat)
    (buffer2 length2 : BitVec 32) (data2 : Nat) :
    isDescOwnedByDma (fillRing desc buffer1 length1 data1 buffer2 length2 data2) = true := by
  show ((desc.status ||| _ ||| DescOwnByDma) &&& DescOwnByDma == DescOwnByDma) = true
  rw [BitVec.and_or_distrib_right, BitVec.and_self, beq_iff_eq]
  ext i hi
  simp

/-- The length field holds the length of the frame modulo 8192. -/
theorem length_fillRing {desc : DmaDesc} (hempty : isDescEmpty desc = true)
    (buffer1 : BitVec 32) (n : Nat) (data1 : Nat) (buffer2 : BitVec 32) (data2 : Nat) :
    ((fillRing desc buffer1 (BitVec.ofNat 32 n) data1 buffer2 0 data2).length &&&
      DescSize1Mask).toNat = n % 8192 := by
  have hzero : desc.length &&& DescSize1Mask = 0#32 := by
    simp only [isDescEmpty, Bool.and_eq_true, beq_iff_eq] at hempty
    exact hempty.1
  have hmask : DescSize1Mask.toNat = 2 ^ 13 - 1 := rfl
  show ((desc.length ||| ((BitVec.ofNat 32 n <<< 0 &&& DescSize1Mask) |||
    ((0 : BitVec 32) <<< 16 &&& DescSize2Mask))) &&& DescSize1Mask).toNat = n % 8192
  have hsecond : (0 : BitVec 32) <<< 16 &&& DescSize2Mask = 0#32 := by decide
  rw [hsecond, BitVec.or_zero, BitVec.and_or_distrib_right, hzero, BitVec.zero_or,
    BitVec.shiftLeft_zero, BitVec.and_assoc, BitVec.and_self, BitVec.toNat_and,
    BitVec.toNat_ofNat, hmask, Nat.and_two_pow_sub_one_eq_mod]
  exact Nat.mod_mod_of_dvd n (Nat.pow_dvd_pow 2 (by decide))

/-- The access to the queue places the frame when its length fits into the field. -/
theorem places_iff (h : TxOwned s) {pbuf : Nat} (hheap : s.heap pbuf = p)
    (hempty : isDescEmpty (s.gmacdev.mem s.gmacdev.txNextDesc) = true)
    (hfree : isDescOwnedByDma (s.gmacdev.mem s.gmacdev.txNextDesc) = false) :
    Places p s (s.setQptr dmaMap p pbuf) ↔ p.length < 8192 := by
  have hmem := h.places.next_desc_eq
  have hdev : (s.setQptr dmaMap p pbuf).gmacdev = s.gmacdev.fill
      (fillRing (s.gmacdev.desc s.gmacdev.txNext) (dmaMap pbuf) (BitVec.ofNat 32 p.length)
        pbuf 0 0 0) := by
    rw [Transmission.setQptr_of_empty dmaMap p pbuf hempty, setTxQptr_fill h.places hempty]
  have hheap' : (s.setQptr dmaMap p pbuf).heap pbuf = p := by
    rw [Transmission.setQptr_of_empty dmaMap p pbuf hempty]
    exact hheap
  rw [hmem] at hempty hfree
  have hlength := length_fillRing hempty (dmaMap pbuf) p.length pbuf 0 0
  unfold Places
  rw [hdev, Device.desc_fill]
  constructor
  · intro hplaces
    rcases hplaces with ⟨i, -, hbefore, howned, -, hsize⟩
    by_cases hin : i = s.gmacdev.txNext
    · rw [hin, Function.update_self, hlength] at hsize
      omega
    · rw [Function.update_of_ne hin, hbefore] at howned
      exact absurd howned Bool.false_ne_true
  · intro hlt
    refine ⟨s.gmacdev.txNext, h.places.next_lt, hfree, ?_, ?_, ?_⟩
    · rw [Function.update_self]
      exact isDescOwnedByDma_fillRing _ _ _ _ _ _ _
    · rw [Function.update_self]
      exact hheap'
    · rw [Function.update_self, hlength, Nat.mod_eq_of_lt hlt]

end Place

/-! ## The rest of a call -/

section Call

variable {dmaMap : Nat → BitVec 32} {s s' s₀ t : Transmission} {p : List UInt8}
  {status : Option Int} {events : List Event}

/-- A call that has returned leaves the ring to the DMA. -/
theorem returned_run (hphase : s.phase = .returned status) (hcalls : ∀ p, .call p ∉ events)
    (hrun : run (step dmaMap) s events = some t) : t.phase = .returned status ∧ SameFrames s t := by
  have hkeeps : ∀ (u : Transmission) (e : Event) (u' : Transmission),
      u.phase = .returned status ∧ SameFrames s u → (∀ p, e ≠ .call p) →
        step dmaMap u e = some u' → u'.phase = .returned status ∧ SameFrames s u' := by
    intro u e u' hu he hstep
    cases e with
    | call p => exact absurd rfl (he p)
    | dma i st =>
        rcases SameFrames.dma hstep with ⟨hsame, hphase', -⟩
        exact ⟨hphase'.trans hu.1, hu.2.trans hsame⟩
    | _ => simp [step, hu.1] at hstep
  refine run_invariant hkeeps ⟨hphase, SameFrames.refl s⟩ ?_ hrun
  intro e he p hp
  exact hcalls p (hp ▸ he)

/-- A call that gives up without touching the device or a buffer. -/
theorem gives_up_run {code : Option Int} (hdev : s'.gmacdev = s.gmacdev) (hheap : s'.heap = s.heap)
    (hphase : s'.phase = .returned code) (hcalls : ∀ p, .call p ∉ events)
    (hrun : run (step dmaMap) s' events = some t) (hreturned : t.phase = .returned status) :
    status = code ∧ SameFrames s t := by
  rcases returned_run hphase hcalls hrun with ⟨hend, hsame⟩
  refine ⟨Phase.returned.inj (hreturned.symm.trans hend), ?_⟩
  exact (SameFrames.of_gmacdev hdev fun i _ _ => congrFun hheap _).trans hsame

/-- A call in its loop returns 0 and places nothing any more. -/
theorem reclaiming_run (h : TxOwned s) (hphase : s.phase = .reclaiming)
    (hcalls : ∀ p, .call p ∉ events) (hrun : run (step dmaMap) s events = some t)
    (hreturned : t.phase = .returned status) :
    status = some 0 ∧ ¬ SomeStep (step dmaMap) (Places p) s events := by
  have hok : ∀ e ∈ events, ∀ p, e ≠ .call p := by
    intro e he p hp
    exact hcalls p (hp ▸ he)
  have hkeeps : ∀ (u : Transmission) (e : Event) (u' : Transmission),
      TxOwned u ∧ (u.phase = .returned (some 0) ∨ u.phase = .reclaiming) → (∀ p, e ≠ .call p) →
        step dmaMap u e = some u' →
          (TxOwned u' ∧ (u'.phase = .returned (some 0) ∨ u'.phase = .reclaiming)) ∧
            ¬ Places p u u' := by
    intro u e u' hu he hstep
    have howned := hu.1.step hstep
    cases e with
    | call p => exact absurd rfl (he p)
    | dma i st =>
        rcases SameFrames.dma hstep with ⟨-, hphase', -⟩
        rw [hphase']
        exact ⟨⟨howned, hu.2⟩, not_places_dma hstep⟩
    | getQptr =>
        rcases step_getQptr hstep with ⟨hloop, hu'⟩
        rw [hu'] at howned ⊢
        exact ⟨⟨howned, Transmission.getQptr_phase hloop⟩, not_places_getQptr hu.1⟩
    | _ =>
        rcases hu.2 with hret | hloop
        · simp [step, hret] at hstep
        · simp [step, hloop] at hstep
  have hs : TxOwned s ∧ (s.phase = .returned (some 0) ∨ s.phase = .reclaiming) :=
    ⟨h, Or.inr hphase⟩
  refine ⟨?_, not_someStep_of_invariant hkeeps hs hok⟩
  have ht := run_invariant (fun u e u' hu he hstep => (hkeeps u e u' hu he hstep).1) hs hok hrun
  rw [hreturned] at ht
  rcases ht.2 with hret | hloop
  · exact Phase.returned.inj hret
  · exact Phase.noConfusion hloop

/-- What a call that is about to fill the next descriptor has found. -/
structure Waits (s₀ s : Transmission) : Prop where
  owned : TxOwned s
  same : SameFrames s₀ s
  free : isDescOwnedByDma (s.gmacdev.mem s.gmacdev.txNextDesc) = false

/-- The DMA does not touch the descriptor. -/
theorem Waits.dma (h : Waits s₀ s) {i : Nat} {st : BitVec 32}
    (hstep : step dmaMap s (.dma i st) = some s') : Waits s₀ s' := by
  have howned := h.owned.step hstep
  refine ⟨howned, h.same.trans (SameFrames.dma hstep).1, ?_⟩
  rcases step_dma hstep with ⟨-, dev, hwrite, hs'⟩
  rcases dmaWrite_store hwrite with ⟨howner, -, hdev⟩
  have hfree := h.free
  have hmem := h.owned.places.next_desc_eq
  have hmem' : dev.mem dev.txNextDesc = dev.desc s.gmacdev.txNext := by
    have hnext : dev.txNextDesc = dev.descAddr s.gmacdev.txNext := by
      rw [hdev]
      exact h.owned.places.next_desc
    rw [hnext]
    rfl
  rw [hs']
  show isDescOwnedByDma (dev.mem dev.txNextDesc) = false
  rw [hmem', hdev, Device.desc_store]
  rw [hmem] at hfree
  by_cases hni : s.gmacdev.txNext = i
  · rw [← hni, hfree] at howner
    exact absurd howner Bool.false_ne_true
  · rw [Function.update_of_ne hni]
    exact hfree

/-- The next descriptor is empty when it was. -/
theorem Waits.empty_eq (h : Waits s₀ s) :
    isDescEmpty (s.gmacdev.mem s.gmacdev.txNextDesc) =
      isDescEmpty (s₀.gmacdev.mem s₀.gmacdev.txNextDesc) := by
  have hdev := h.same.device
  have hplaces := h.owned.places
  have hnext : s.gmacdev.txNext < s₀.gmacdev.txDescCount := by
    have hlt := hplaces.next_lt
    rw [hdev] at hlt
    rw [hdev]
    exact hlt
  have hdesc := h.same.desc _ hnext
  have haddr : s₀.gmacdev.txNextDesc = s₀.gmacdev.descAddr s.gmacdev.txNext := by
    have haddr' := hplaces.next_desc
    rw [hdev] at haddr' ⊢
    exact haddr'
  rw [haddr, hplaces.next_desc_eq, hdesc]
  rfl

/-- The buffer that is allocated is none of those in the ring. -/
theorem Waits.allocMemory {pbuf : Nat} (h : Waits s₀ s) (hstep : s.allocMemory p pbuf = some s')
    (hne : pbuf ≠ 0) :
    Waits s₀ s' ∧ s'.phase = .queueing p pbuf ∧ s'.gmacdev = s.gmacdev ∧ s'.heap pbuf = p := by
  have howned : TxOwned s' := h.owned.allocMemory hstep
  rcases Transmission.allocMemory_cases hstep with ⟨hzero, -⟩ | ⟨-, hcount, hs'⟩
  · exact absurd hzero hne
  have hdev : s'.gmacdev = s.gmacdev := by rw [hs']
  have hsame : SameFrames s s' := by
    apply SameFrames.of_gmacdev hdev
    intro i hi hnonzero
    have hlive := h.owned.live i hi hnonzero
    have hother : (s.gmacdev.desc i).data1 ≠ pbuf := by
      intro heq
      rw [heq] at hlive
      exact Nat.not_lt_of_le (Nat.le_of_eq hcount) hlive
    rw [hs']
    exact Function.update_of_ne hother p s.heap
  refine ⟨⟨howned, h.same.trans hsame, hdev.symm ▸ h.free⟩, by rw [hs'], hdev, ?_⟩
  rw [hs']
  exact Function.update_self pbuf p s.heap

/-- A call that has allocated its buffer places the frame, or finds no empty descriptor. -/
theorem queueing_run {pbuf : Nat} (h : Waits s₀ s) (hphase : s.phase = .queueing p pbuf)
    (hheap : s.heap pbuf = p) (hcalls : ∀ p, .call p ∉ events)
    (hrun : run (step dmaMap) s events = some t) (hreturned : t.phase = .returned status) :
    (isDescEmpty (s₀.gmacdev.mem s₀.gmacdev.txNextDesc) = true ∧ status = some 0 ∧
        (SomeStep (step dmaMap) (Places p) s events ↔ p.length < 8192)) ∨
      (isDescEmpty (s₀.gmacdev.mem s₀.gmacdev.txNextDesc) = false ∧ status = some (-16) ∧
        SameFrames s₀ t) := by
  induction events generalizing s with
  | nil =>
      rw [run_nil, Option.some.injEq] at hrun
      rw [← hrun, hphase] at hreturned
      exact Phase.noConfusion hreturned
  | cons e events ih =>
      rcases run_cons_eq_some.mp hrun with ⟨s', hstep, hrest⟩
      have hcalls' : ∀ p, .call p ∉ events := fun p hp => hcalls p (List.mem_cons_of_mem e hp)
      rw [someStep_cons hstep]
      cases e with
      | dma i st =>
          rcases SameFrames.dma hstep with ⟨-, hphase', hheap'⟩
          rw [or_iff_right (not_places_dma hstep)]
          exact ih (h.dma hstep) (hphase'.trans hphase) (hheap' ▸ hheap) hcalls' hrest
      | setQptr =>
          rw [step, hphase, Option.some.injEq] at hstep
          rw [← h.empty_eq]
          cases hempty : isDescEmpty (s.gmacdev.mem s.gmacdev.txNextDesc) with
          | true =>
              have hloop : s'.phase = .reclaiming := by
                rw [← hstep, Transmission.setQptr_of_empty dmaMap p pbuf hempty]
              have howned : TxOwned s' := hstep ▸ h.owned.setQptr hphase dmaMap
              rcases reclaiming_run howned hloop hcalls' hrest hreturned with ⟨hzero, hnone⟩
              refine Or.inl ⟨rfl, hzero, ?_⟩
              rw [or_iff_left hnone, ← hstep]
              exact places_iff h.owned hheap hempty h.free
          | false =>
              rw [Transmission.setQptr_of_full dmaMap p pbuf hempty] at hstep
              have hdev : s'.gmacdev = s.gmacdev := by rw [← hstep]
              have hheap' : s'.heap = s.heap := by rw [← hstep]
              have hret : s'.phase = .returned (some (-16)) := by rw [← hstep]
              rcases gives_up_run hdev hheap' hret hcalls' hrest hreturned with ⟨hcode, hsame⟩
              exact Or.inr ⟨rfl, hcode, h.same.trans hsame⟩
      | call q => exact absurd List.mem_cons_self (hcalls q)
      | _ => simp [step, hphase] at hstep

/-- Only a call that has still to allocate its buffer allocates one. -/
theorem not_mem_allocMemory (hphase : ∀ p, s.phase ≠ .allocating p)
    (hcalls : ∀ p, .call p ∉ events) (hrun : run (step dmaMap) s events = some t) (pbuf : Nat) :
    .allocMemory pbuf ∉ events := by
  induction events generalizing s with
  | nil => exact List.not_mem_nil
  | cons e events ih =>
      rcases run_cons_eq_some.mp hrun with ⟨s', hstep, hrest⟩
      have hcalls' : ∀ p, .call p ∉ events := fun p hp => hcalls p (List.mem_cons_of_mem e hp)
      rw [List.mem_cons, not_or]
      cases e with
      | call q => exact absurd List.mem_cons_self (hcalls q)
      | allocMemory b =>
          rcases step_allocMemory hstep with ⟨q, hq, -⟩
          exact absurd hq (hphase q)
      | getQptr =>
          refine ⟨Event.noConfusion, ih ?_ hcalls' hrest⟩
          intro q hq
          rcases step_getQptr hstep with ⟨hp, hs'⟩
          rcases Transmission.getQptr_phase hp with hend | hloop
          · rw [hs', hend] at hq
            exact Phase.noConfusion hq
          · rw [hs', hloop] at hq
            exact Phase.noConfusion hq
      | setQptr =>
          refine ⟨Event.noConfusion, ih ?_ hcalls' hrest⟩
          intro q hq
          rcases transmit_step_cases (fun p => Event.noConfusion) Event.noConfusion hstep with
            ⟨_, -, he, -⟩ | ⟨_, _, -, he, -⟩ | ⟨_, _, -, -, ⟨-, hnext⟩ | ⟨-, hnext⟩⟩ | ⟨_, _, he, -⟩
          · exact Event.noConfusion he
          · exact Event.noConfusion he
          · rw [hnext] at hq
            exact Phase.noConfusion hq
          · rw [hnext] at hq
            exact Phase.noConfusion hq
          · exact Event.noConfusion he
      | dma i st =>
          refine ⟨Event.noConfusion, ih ?_ hcalls' hrest⟩
          intro q hq
          rw [(SameFrames.dma hstep).2.1] at hq
          exact hphase q hq

/-- A call that has found the next descriptor free. -/
theorem allocating_run (h : Waits s₀ s) (hphase : s.phase = .allocating p)
    (hcalls : ∀ p, .call p ∉ events) (hrun : run (step dmaMap) s events = some t)
    (hreturned : t.phase = .returned status) :
    (.allocMemory 0 ∉ events ∧ isDescEmpty (s₀.gmacdev.mem s₀.gmacdev.txNextDesc) = true ∧
        status = some 0 ∧ (SomeStep (step dmaMap) (Places p) s events ↔ p.length < 8192)) ∨
      ((.allocMemory 0 ∈ events ∨ isDescEmpty (s₀.gmacdev.mem s₀.gmacdev.txNextDesc) = false) ∧
        status ≠ some 0 ∧ SameFrames s₀ t) := by
  induction events generalizing s with
  | nil =>
      rw [run_nil, Option.some.injEq] at hrun
      rw [← hrun, hphase] at hreturned
      exact Phase.noConfusion hreturned
  | cons e events ih =>
      rcases run_cons_eq_some.mp hrun with ⟨s', hstep, hrest⟩
      have hcalls' : ∀ p, .call p ∉ events := fun p hp => hcalls p (List.mem_cons_of_mem e hp)
      rw [someStep_cons hstep]
      cases e with
      | dma i st =>
          have hmem : Event.allocMemory 0 ∈ Event.dma i st :: events ↔
              Event.allocMemory 0 ∈ events := by simp
          rw [or_iff_right (not_places_dma hstep), hmem]
          exact ih (h.dma hstep) ((SameFrames.dma hstep).2.1.trans hphase) hcalls' hrest
      | allocMemory pbuf =>
          rw [step, hphase] at hstep
          by_cases hzero : pbuf = 0
          · rcases Transmission.allocMemory_cases hstep with ⟨-, hs'⟩ | ⟨hne, -⟩
            · have hdev : s'.gmacdev = s.gmacdev := by rw [hs']
              have hheap : s'.heap = s.heap := by rw [hs']
              have hret : s'.phase = .returned (some (-1)) := by rw [hs']
              rcases gives_up_run hdev hheap hret hcalls' hrest hreturned with ⟨hcode, hsame⟩
              refine Or.inr ⟨Or.inl (hzero ▸ List.mem_cons_self), ?_, h.same.trans hsame⟩
              rw [hcode]
              decide
            · exact absurd hzero hne
          · rcases h.allocMemory hstep hzero with ⟨hwaits, hqueue, hdev, hheap⟩
            have hnot : Event.allocMemory 0 ∉ Event.allocMemory pbuf :: events := by
              rw [List.mem_cons, not_or]
              refine ⟨fun heq => hzero (Event.allocMemory.inj heq).symm, ?_⟩
              apply not_mem_allocMemory _ hcalls' hrest
              intro q hq
              rw [hqueue] at hq
              exact Phase.noConfusion hq
            rw [or_iff_right (not_places_of_gmacdev hdev)]
            rcases queueing_run hwaits hqueue hheap hcalls' hrest hreturned with
              ⟨hempty, hcode, hplaces⟩ | ⟨hfull, hcode, hend⟩
            · exact Or.inl ⟨hnot, hempty, hcode, hplaces⟩
            · refine Or.inr ⟨Or.inr hfull, ?_, hend⟩
              rw [hcode]
              decide
      | call q => exact absurd List.mem_cons_self (hcalls q)
      | _ => simp [step, hphase] at hstep

end Call

/-! ## Calls of the driver -/

/-- What happens in the driver within a call of `rt_eth_tx` is a run of the transmit side. -/
theorem Driver.tx_run {dmaMap : Nat → BitVec 32} {P : Transmission → Transmission → Prop}
    (hP : ∀ u, ¬ P u u) {s t : Driver} {accesses : List Access}
    (hcalls : ∀ device p, .ethTx device p ∉ accesses)
    (hrun : run (Driver.step dmaMap) s accesses = some t) :
    ∃ events : List Event, run (Net.step dmaMap) s.tx events = some t.tx ∧ (∀ p, .call p ∉ events) ∧
      (∀ pbuf, Access.transmit (.allocMemory pbuf) ∈ accesses ↔ .allocMemory pbuf ∈ events) ∧
      (SomeStep (Driver.step dmaMap) (fun u u' => P u.tx u'.tx) s accesses ↔
        SomeStep (Net.step dmaMap) P s.tx events) := by
  induction accesses generalizing s with
  | nil =>
      rw [run_nil, Option.some.injEq] at hrun
      refine ⟨[], by rw [← hrun, run_nil], fun _ => List.not_mem_nil, ?_, Iff.rfl⟩
      intro pbuf
      exact iff_of_false List.not_mem_nil List.not_mem_nil
  | cons a accesses ih =>
      rcases run_cons_eq_some.mp hrun with ⟨s', hstep, hrest⟩
      have hcalls' : ∀ device p, .ethTx device p ∉ accesses :=
        fun device p hp => hcalls device p (List.mem_cons_of_mem a hp)
      rcases ih hcalls' hrest with ⟨events, hevents, hnone, halloc, hsome⟩
      rw [someStep_cons hstep]
      rcases Driver.tx_cases hstep with ⟨p, ha, -⟩ | ⟨device, p, ha, -⟩ | ⟨e, ha, he, htx⟩ |
        ⟨-, ha, htx⟩
      · rw [ha] at hcalls
        exact absurd List.mem_cons_self (hcalls _ p)
      · rw [ha] at hcalls
        exact absurd List.mem_cons_self (hcalls device p)
      · refine ⟨e :: events, run_cons_eq_some.mpr ⟨s'.tx, htx, hevents⟩, ?_, ?_, ?_⟩
        · intro p hp
          rcases List.mem_cons.mp hp with hp | hp
          · exact he p hp.symm
          · exact hnone p hp
        · intro pbuf
          rw [ha, List.mem_cons, List.mem_cons, halloc pbuf, Access.transmit.injEq]
        · rw [someStep_cons htx, hsome]
      · rw [htx] at hevents hsome
        refine ⟨events, hevents, hnone, ?_, ?_⟩
        · intro pbuf
          rw [List.mem_cons, halloc pbuf]
          exact or_iff_right fun heq => ha _ heq.symm
        · rw [htx, hsome]
          exact or_iff_right (hP s.tx)

/-- Nothing is placed without a step. -/
theorem not_places_self (p : List UInt8) (s : Transmission) : ¬ Places p s s :=
  not_places_of_gmacdev rfl

/-- A call that finds the next descriptor with the DMA returns 0 and places nothing. -/
theorem ethTx_skips {dmaMap : Nat → BitVec 32} {s t : Driver} {p : List UInt8}
    {rest : List Access} {status : Int} (howned : TxOwned s.tx)
    (howner : isDescOwnedByDma (s.tx.gmacdev.mem s.tx.gmacdev.txNextDesc) = true)
    (hrest : ∀ device p, .ethTx device p ∉ rest)
    (hcall : run (Driver.step dmaMap) s (.ethTx .attached p :: rest) = some t)
    (hreturned : t.tx.phase = .returned (some status)) :
    status = 0 ∧ ¬ SomeStep (Driver.step dmaMap) (fun s s' => Places p s.tx s'.tx) s
      (.ethTx .attached p :: rest) := by
  rcases run_cons_eq_some.mp hcall with ⟨s', hstep, hrun⟩
  rcases Driver.tx_run (not_places_self p) hrest hrun with ⟨events, hevents, hnone, -, hsome⟩
  rw [someStep_cons hstep, hsome]
  rcases Driver.tx_cases hstep with ⟨q, -, htx⟩ | ⟨d, q, ha, hd, -⟩ | ⟨e, ha, -⟩ | ⟨ha, -⟩
  · have howned' := howned.step htx
    rcases step_call htx with ⟨st, -, htx⟩
    rcases Transmission.call_cases htx with ⟨-, htx⟩ | ⟨hfree, -⟩
    · have hloop : s'.tx.phase = .reclaiming := by rw [htx]
      have hsame : ¬ Places p s.tx s'.tx := not_places_of_gmacdev (by rw [htx])
      rcases reclaiming_run howned' hloop hnone hevents hreturned with ⟨hzero, hnot⟩
      exact ⟨Option.some.inj hzero, not_or.mpr ⟨hsame, hnot⟩⟩
    · rw [howner] at hfree
      exact absurd hfree.symm Bool.false_ne_true
  · exact absurd (Access.ethTx.inj ha).1.symm hd
  · exact Access.noConfusion ha
  · exact absurd rfl (ha .attached p)

/-- From every state that the driver reaches, a call of `rt_eth_tx` reports what it has done
exactly when it has no device to send with, or finds a descriptor that the DMA does not
own and has a frame that fits, no empty descriptor or no buffer. -/
theorem ethTx_reports_iff {dmaMap : Nat → BitVec 32} {mem : Nat → DmaDesc}
    {heap : Nat → List UInt8} {firstDesc : Nat} {rx : Reception} {before : List Access}
    {s : Driver}
    (hbefore : run (Driver.step dmaMap) (Driver.init (ethInit mem heap firstDesc) rx) before =
      some s)
    {device : EthDevice} {p : List UInt8} {rest : List Access}
    (hrest : ∀ device p, .ethTx device p ∉ rest) {t : Driver}
    (hcall : run (Driver.step dmaMap) s (.ethTx device p :: rest) = some t) {status : Int}
    (hreturned : t.tx.phase = .returned (some status)) :
    Reports dmaMap p s (.ethTx device p :: rest) t status ↔
      device ≠ .attached ∨ (isDescOwnedByDma (s.tx.gmacdev.mem s.tx.gmacdev.txNextDesc) = false ∧
        (p.length < 8192 ∨ isDescEmpty (s.tx.gmacdev.mem s.tx.gmacdev.txNextDesc) = false ∨
          .transmit (.allocMemory 0) ∈ rest)) := by
  rcases run_cons_eq_some.mp hcall with ⟨s', hstep, hrun⟩
  rcases Driver.tx_run (not_places_self p) hrest hrun with ⟨events, hevents, hnone, halloc, hsome⟩
  unfold Reports
  rw [someStep_cons hstep, hsome, halloc 0]
  rcases Driver.tx_cases hstep with ⟨q, ha, htx⟩ | ⟨d, q, ha, hd, hidle, htx⟩ | ⟨e, ha, -⟩ |
    ⟨ha, -⟩
  · rcases Access.ethTx.inj ha with ⟨hd, hq⟩
    rw [hd, or_iff_right (not_not_intro rfl)]
    rw [← hq] at htx
    have howned : TxOwned s.tx := (TxUsable.run hbefore).owned htx
    have howned' := howned.step htx
    rcases step_call htx with ⟨st, -, htx⟩
    rcases Transmission.call_cases htx with ⟨howner, htx⟩ | ⟨hfree, htx⟩
    · rw [hd] at hcall
      rcases ethTx_skips howned howner hrest hcall hreturned with ⟨hzero, hnot⟩
      rw [someStep_cons (hd ▸ hstep), hsome] at hnot
      rw [howner]
      exact iff_of_false (fun h => hnot (h.1 hzero)) fun h => Bool.false_ne_true h.1.symm
    · have hwait : s'.tx.phase = .allocating p := by rw [htx]
      have hsame : ¬ Places p s.tx s'.tx := not_places_of_gmacdev (by rw [htx])
      have hwaits : Waits s.tx s'.tx := by
        refine ⟨howned', ?_, ?_⟩
        · rw [htx]
          exact SameFrames.of_gmacdev rfl fun _ _ _ => rfl
        · rw [htx]
          exact hfree
      rw [hfree, or_iff_right hsame, and_iff_right rfl]
      rcases allocating_run hwaits hwait hnone hevents hreturned with
        ⟨hmem, hempty, hzero, hplaces⟩ | ⟨hfails, hcode, hend⟩
      · rw [hplaces, hempty, Option.some.inj hzero]
        simp [hmem]
      · have hne : status ≠ 0 := fun h0 => hcode (h0 ▸ rfl)
        refine iff_of_true ⟨fun h0 => absurd h0 hne, fun _ => hend⟩ (Or.inr ?_)
        exact hfails.symm
  · rcases Access.ethTx.inj ha with ⟨hd', -⟩
    have hdev : s'.tx.gmacdev = s.tx.gmacdev := by rw [htx]
    have hheap : s'.tx.heap = s.tx.heap := by rw [htx]
    have hret : s'.tx.phase = .returned (some (-1)) := by rw [htx]
    rcases gives_up_run hdev hheap hret hnone hevents hreturned with ⟨hcode, hsame⟩
    refine iff_of_true ⟨?_, fun _ => hsame⟩ (Or.inl (hd'.symm ▸ hd))
    intro h0
    rw [h0] at hcode
    exact absurd hcode (by decide)
  · exact Access.noConfusion ha
  · exact absurd rfl (ha device p)

/-- The receive side when `eth_init` has got no buffer. -/
def withoutBuffers : Reception :=
  Reception.start (fun _ _ => 0) (setupRxDescQueue
    (RxDevice.zeroed fun _ => rxDescInitRing false) 8192 RECEIVE_DESC_SIZE).2 []

/-- The driver after `eth_init`. -/
def quietDriver : Driver :=
  Driver.init (ethInit (fun _ => txDescInitRing false) (fun _ => []) 4096) withoutBuffers

/-- A frame of two bytes is placed. -/
theorem ethTx_reports_two_bytes : ∃ t,
    run (Driver.step fun pbuf => BitVec.ofNat 32 pbuf) quietDriver
        [.ethTx .attached [1, 2], .transmit (.allocMemory 640), .transmit .setQptr,
          .transmit .getQptr] = some t ∧
      Reports (fun pbuf => BitVec.ofNat 32 pbuf) [1, 2] quietDriver
        [.ethTx .attached [1, 2], .transmit (.allocMemory 640), .transmit .setQptr,
          .transmit .getQptr] t 0 := by
  have hrun : (run (Driver.step fun pbuf => BitVec.ofNat 32 pbuf) quietDriver
      [.ethTx .attached [1, 2], .transmit (.allocMemory 640), .transmit .setQptr,
        .transmit .getQptr]).map (fun t => t.tx.phase) = some (.returned (some 0)) := by
    decide
  have hfree : isDescOwnedByDma (quietDriver.tx.gmacdev.mem quietDriver.tx.gmacdev.txNextDesc) =
      false := by decide
  rcases Option.map_eq_some_iff.mp hrun with ⟨t, ht, hphase⟩
  refine ⟨t, ht, (ethTx_reports_iff (run_nil quietDriver) ?_ ht hphase).mpr (Or.inr ⟨hfree, ?_⟩)⟩
  · intro device p
    simp
  · exact Or.inl (by decide)

/-- Calls that fill every descriptor before the DMA has sent a frame. -/
def fullRing : List Access :=
  (List.range 36).flatMap fun k =>
    [.ethTx .attached [1], .transmit (.allocMemory (640 + 64 * k)), .transmit .setQptr,
      .transmit .getQptr]

/-- The next frame is dropped, and the call returns 0. -/
theorem ethTx_drops_silently : ∃ s t,
    run (Driver.step fun pbuf => BitVec.ofNat 32 pbuf) quietDriver fullRing = some s ∧
      run (Driver.step fun pbuf => BitVec.ofNat 32 pbuf) s
        [.ethTx .attached [2], .transmit .getQptr] = some t ∧
      t.tx.phase = .returned (some 0) ∧
      ¬ Reports (fun pbuf => BitVec.ofNat 32 pbuf) [2] s
        [.ethTx .attached [2], .transmit .getQptr] t 0 := by
  have hrun : (run (Driver.step fun pbuf => BitVec.ofNat 32 pbuf) quietDriver fullRing).bind
      (fun s => (run (Driver.step fun pbuf => BitVec.ofNat 32 pbuf) s
        [.ethTx .attached [2], .transmit .getQptr]).map fun t =>
          (isDescOwnedByDma (s.tx.gmacdev.mem s.tx.gmacdev.txNextDesc), t.tx.phase)) =
      some (true, .returned (some 0)) := by decide +kernel
  rcases Option.bind_eq_some_iff.mp hrun with ⟨s, hs, hmap⟩
  rcases Option.map_eq_some_iff.mp hmap with ⟨t, ht, heq⟩
  rw [Prod.mk.injEq] at heq
  refine ⟨s, t, hs, ht, heq.2, ?_⟩
  intro hreports
  have hrest : ∀ device p, Access.ethTx device p ∉ [Access.transmit .getQptr] := by
    intro device p
    simp
  rcases run_cons_eq_some.mp ht with ⟨s', hstep, -⟩
  have howned : TxOwned s.tx := (TxUsable.run hs).owned_of_ethTx hstep
  exact (ethTx_skips howned heq.1 hrest ht heq.2).2 (hreports.1 rfl)

end Net
end Ls2kMorse
