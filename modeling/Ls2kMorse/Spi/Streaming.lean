import Ls2kMorse.Lib.Window
import Ls2kMorse.Spi.Vs1003
import Mathlib.Order.Lattice.Nat

/-!
# Streaming data to the codec

`sdi_send_buffer` waits for the request line of the codec, sends up to 32 bytes and
waits again.  The module embeds the nested loops with their shared pointer and
counters as one step function, lets the line behave in any way, and relates every
run to the accesses of the complete transfer.

Main results:

- Theorem `Transfer.step_next`: the loops never get stuck inside the buffer.
- Theorem `Transfer.Reachable.refines`: a run has done a first part of the accesses
  of `sdiSendBuffer`, apart from polls that found the line low.
- Theorem `sdiSendBuffer_paced`: a byte of the complete transfer is paid for by the
  last poll that found the line high.
- Theorem `Transfer.exists_done`: the loops end when every wait does.
- Theorem `sdiSendBuffer_streams`: which bytes are sent, when, and what is left
  selected.
-/

namespace Ls2kMorse
namespace Spi

open Lib Lib.Trace

/-! ## The loops as the source computes them -/

/-- An access to the controller, or a poll of the request line. -/
inductive Event where
  | access (a : Access)
  | dreq (high : Bool)
deriving Repr, DecidableEq

/-- Where `sdi_send_buffer` stands: inside `data_mode_on`, at `while (len)`, in
`await_data_request`, at `while (chunk_length--)`, between a byte and its echo,
inside `data_mode_off`, or behind it. -/
inductive SdiPc where
  | on (rest : List Access)
  | test
  | await
  | send
  | echo
  | off (rest : List Access)
  | done
deriving Repr, DecidableEq

/-- The local variables, the number of polls and what has happened so far; `pos` is
the offset of the pointer `data`. -/
structure Transfer where
  pc : SdiPc
  pos : Nat
  len : Nat
  chunkLength : Nat
  polls : Nat
  trace : List Event
deriving Repr, DecidableEq

/-- Subtraction in a `size_t`. -/
def sizeSub (x y : Nat) : Nat :=
  (x + 2 ^ 64 - y) % 2 ^ 64

namespace Transfer

/-- The transfer before its first access. -/
def init (len : Nat) : Transfer where
  pc := .on dataModeOn
  pos := 0
  len := len
  chunkLength := 0
  polls := 0
  trace := []

/-- One access, one poll or one test of a loop; `dreq i` is the level that the
`i`-th poll finds.  No step where a byte outside the buffer would be read. -/
def step (data : List UInt8) (dreq : Nat → Bool) (s : Transfer) : Option Transfer :=
  match s.pc with
  | .on (a :: rest) => some { s with pc := .on rest, trace := s.trace ++ [.access a] }
  | .on [] => some { s with pc := .test }
  | .test =>
      if s.len ≠ 0 then some { s with pc := .await } else some { s with pc := .off dataModeOff }
  | .await =>
      let high := dreq s.polls
      let s := { s with polls := s.polls + 1, trace := s.trace ++ [.dreq high] }
      if high then
        let chunkLength := min s.len VS1003_CHUNK_SIZE
        some { s with pc := .send, len := sizeSub s.len chunkLength, chunkLength := chunkLength }
      else some s
  | .send =>
      let chunkLength := s.chunkLength
      let s := { s with chunkLength := sizeSub chunkLength 1 }
      if chunkLength ≠ 0 then do
        let d ← data[s.pos]?
        some { s with pc := .echo, pos := s.pos + 1, trace := s.trace ++ [.access (.tx .sdi d)] }
      else some { s with pc := .test }
  | .echo => some { s with pc := .send, trace := s.trace ++ [.access (.rx .sdi)] }
  | .off (a :: rest) => some { s with pc := .off rest, trace := s.trace ++ [.access a] }
  | .off [] => some { s with pc := .done }
  | .done => some s

/-- The states that a call on `len` bytes of a buffer comes to. -/
def Reachable (data : List UInt8) (dreq : Nat → Bool) (len : Nat) : Transfer → Prop :=
  Relation.ReflTransGen (fun s t => s.step data dreq = some t) (init len)

end Transfer

/-! ## What is seen on the wires -/

/-- The bytes that are sent. -/
def bytesSent (trace : List Event) : List UInt8 :=
  trace.flatMap fun
    | .access (.tx _ d) => [d]
    | _ => []

/-- The bytes that are sent while `xDcs` is low. -/
def bytesWhileSelected : Controller → List Event → List UInt8
  | _, [] => []
  | s, .dreq _ :: trace => bytesWhileSelected s trace
  | s, .access (.tx bus d) :: trace =>
      if xDcs ∈ lowLines s.softcs then d :: bytesWhileSelected (exec s (.tx bus d)) trace
      else bytesWhileSelected (exec s (.tx bus d)) trace
  | s, .access a :: trace => bytesWhileSelected (exec s a) trace

/-- The effect of an event on the controller. -/
def execEvent (s : Controller) : Event → Controller
  | .access a => exec s a
  | .dreq _ => s

/-- The bytes that may be sent before the next poll that finds the line high. -/
def spend : Nat → Event → Nat
  | _, .dreq true => VS1003_CHUNK_SIZE
  | k, .access (.tx _ _) => k - 1
  | k, _ => k

/-! ## A run and the accesses of the complete transfer -/

/-- The event that an access of the complete transfer stands for: a wait ends with
a poll that finds the line high. -/
def eventOf : Access → Event
  | .awaitDataRequest => .dreq true
  | a => .access a

/-- A run without the polls that found the line low. -/
def withoutWaits (trace : List Event) : List Event :=
  trace.filter fun e => e ≠ .dreq false

/-- A difference of sizes that does not wrap. -/
theorem sizeSub_eq {x y : Nat} (h : y ≤ x) (hx : x < 2 ^ 64) : sizeSub x y = x - y := by
  unfold sizeSub
  omega

/-- The loop on a buffer that is not empty. -/
theorem sendChunks_of_ne_nil {data : List UInt8} (h : data ≠ []) :
    sendChunks data = .awaitDataRequest ::
      ((data.take VS1003_CHUNK_SIZE).flatMap (spiWriteForResponse .sdi) ++
        sendChunks (data.drop VS1003_CHUNK_SIZE)) := by
  cases data with
  | nil => exact absurd rfl h
  | cons d data => rw [sendChunks]

/-- A chunk is taken from the front of a window. -/
theorem sendChunks_window {data : List UInt8} {pos len : Nat} (hpos : pos + len ≤ data.length)
    (hlen : len ≠ 0) :
    sendChunks (window data pos len) = .awaitDataRequest ::
      ((window data pos (min len 32)).flatMap (spiWriteForResponse .sdi) ++
        sendChunks (window data (pos + min len 32) (len - min len 32))) := by
  have hne : window data pos len ≠ [] := by
    intro hnil
    have hlength := length_window hpos
    rw [hnil, List.length_nil] at hlength
    exact hlen hlength.symm
  have hsplit := window_add data pos (min len 32) (len - min len 32)
  rw [Nat.add_sub_cancel' (Nat.min_le_left len 32)] at hsplit
  have hfirst : (window data pos (min len 32)).length = min len 32 := length_window (by omega)
  have hchunk : (window data pos len).take 32 = window data pos (min len 32) ∧
      (window data pos len).drop 32 =
        window data (pos + min len 32) (len - min len 32) := by
    by_cases hlong : 32 ≤ len
    · rw [Nat.min_eq_right hlong] at hsplit hfirst ⊢
      rw [hsplit]
      exact ⟨List.take_left' hfirst, List.drop_left' hfirst⟩
    · have hall : min len 32 = len := Nat.min_eq_left (by omega)
      have hlength := length_window hpos
      rw [hall, Nat.sub_self, window_zero]
      exact ⟨List.take_of_length_le (by omega), List.drop_eq_nil_of_le (by omega)⟩
  have hsize : VS1003_CHUNK_SIZE = 32 := rfl
  rw [sendChunks_of_ne_nil hne, hsize, hchunk.1, hchunk.2]

namespace Transfer

/-- The accesses that a call still has to do. -/
def rest (data : List UInt8) (s : Transfer) : List Access :=
  match s.pc with
  | .on rest => rest ++ (sendChunks (window data s.pos s.len) ++ dataModeOff)
  | .test => sendChunks (window data s.pos s.len) ++ dataModeOff
  | .await => sendChunks (window data s.pos s.len) ++ dataModeOff
  | .send =>
      (window data s.pos s.chunkLength).flatMap (spiWriteForResponse .sdi) ++
        (sendChunks (window data (s.pos + s.chunkLength) s.len) ++ dataModeOff)
  | .echo =>
      .rx .sdi :: ((window data s.pos s.chunkLength).flatMap (spiWriteForResponse .sdi) ++
        (sendChunks (window data (s.pos + s.chunkLength) s.len) ++ dataModeOff))
  | .off rest => rest
  | .done => []

/-- The counters do not reach behind the buffer, and the accesses around the loop
contain no wait. -/
def InBounds (data : List UInt8) (s : Transfer) : Prop :=
  s.len < 2 ^ 64 ∧
    match s.pc with
    | .on rest => .awaitDataRequest ∉ rest ∧ s.pos + s.len ≤ data.length
    | .test => s.pos + s.len ≤ data.length
    | .await => s.pos + s.len ≤ data.length ∧ s.len ≠ 0
    | .send => s.pos + s.chunkLength + s.len ≤ data.length ∧ s.chunkLength < 2 ^ 64
    | .echo => s.pos + s.chunkLength + s.len ≤ data.length ∧ s.chunkLength < 2 ^ 64
    | .off rest => .awaitDataRequest ∉ rest
    | .done => True

/-- What a call has done and what it still has to do. -/
def whole (data : List UInt8) (s : Transfer) : List Event :=
  withoutWaits s.trace ++ (s.rest data).map eventOf

end Transfer

theorem eventOf_eq {a : Access} (h : a ≠ .awaitDataRequest) : eventOf a = .access a := by
  cases a with
  | awaitDataRequest => exact absurd rfl h
  | load => rfl
  | storeCs cs newStatus => rfl
  | storeCsn val => rfl
  | tx bus d => rfl
  | rx bus => rfl
  | delay => rfl

theorem withoutWaits_append (trace : List Event) (e : Event) :
    withoutWaits (trace ++ [e]) = withoutWaits trace ++ withoutWaits [e] :=
  List.filter_append _ _

theorem withoutWaits_access (a : Access) : withoutWaits [.access a] = [.access a] := by
  simp [withoutWaits]

namespace Transfer

/-- The steps of a call that stays inside the buffer, with the subtractions of the
loops carried out. -/
inductive Next (data : List UInt8) (dreq : Nat → Bool) (s : Transfer) : Transfer → Prop where
  | on {a : Access} {rest : List Access} (hpc : s.pc = .on (a :: rest)) :
      Next data dreq s { s with pc := .on rest, trace := s.trace ++ [.access a] }
  | enter (hpc : s.pc = .on []) : Next data dreq s { s with pc := .test }
  | again (hpc : s.pc = .test) (hlen : s.len ≠ 0) : Next data dreq s { s with pc := .await }
  | leave (hpc : s.pc = .test) (hlen : s.len = 0) :
      Next data dreq s { s with pc := .off dataModeOff }
  | wait (hpc : s.pc = .await) (hlow : dreq s.polls = false) :
      Next data dreq s { s with polls := s.polls + 1, trace := s.trace ++ [.dreq false] }
  | cut (hpc : s.pc = .await) (hhigh : dreq s.polls = true) :
      Next data dreq s
        { s with
          pc := .send
          len := s.len - min s.len 32
          chunkLength := min s.len 32
          polls := s.polls + 1
          trace := s.trace ++ [.dreq true] }
  | tx {n : Nat} (hpc : s.pc = .send) (hn : s.chunkLength = n + 1) (hlt : s.pos < data.length) :
      Next data dreq s
        { s with
          pc := .echo
          pos := s.pos + 1
          chunkLength := n
          trace := s.trace ++ [.access (.tx .sdi data[s.pos])] }
  | sent (hpc : s.pc = .send) (hzero : s.chunkLength = 0) :
      Next data dreq s { s with pc := .test, chunkLength := sizeSub s.chunkLength 1 }
  | rx (hpc : s.pc = .echo) :
      Next data dreq s { s with pc := .send, trace := s.trace ++ [.access (.rx .sdi)] }
  | off {a : Access} {rest : List Access} (hpc : s.pc = .off (a :: rest)) :
      Next data dreq s { s with pc := .off rest, trace := s.trace ++ [.access a] }
  | finish (hpc : s.pc = .off []) : Next data dreq s { s with pc := .done }
  | stay (hpc : s.pc = .done) : Next data dreq s s

/-- Inside the buffer there always is a next step, and none of its subtractions
wraps but the one behind the last byte of a chunk. -/
theorem step_next {data : List UInt8} {s : Transfer} (h : s.InBounds data) (dreq : Nat → Bool) :
    ∃ t, s.step data dreq = some t ∧ Next data dreq s t := by
  rcases h with ⟨hsize, hbounds⟩
  unfold Transfer.step
  cases hpc : s.pc with
  | on rest =>
      cases rest with
      | nil => exact ⟨_, rfl, Next.enter hpc⟩
      | cons a rest => exact ⟨_, rfl, Next.on hpc⟩
  | test =>
      by_cases hlen : s.len ≠ 0
      · exact ⟨_, if_pos hlen, Next.again hpc hlen⟩
      · exact ⟨_, if_neg hlen, Next.leave hpc (not_not.mp hlen)⟩
  | await =>
      cases hhigh : dreq s.polls with
      | false =>
          have hnext : Next data dreq s _ := Next.wait hpc hhigh
          rw [hpc] at hnext
          exact ⟨_, rfl, hnext⟩
      | true =>
          have hsub : sizeSub s.len (min s.len VS1003_CHUNK_SIZE) = s.len - min s.len 32 :=
            sizeSub_eq (Nat.min_le_left _ _) hsize
          refine ⟨_, rfl, ?_⟩
          rw [hsub]
          exact Next.cut hpc hhigh
  | send =>
      simp only [hpc] at hbounds
      by_cases hne : s.chunkLength ≠ 0
      · have hlt : s.pos < data.length := by omega
        obtain ⟨n, hn⟩ : ∃ n, s.chunkLength = n + 1 := ⟨s.chunkLength - 1, by omega⟩
        have hsub : sizeSub s.chunkLength 1 = n := by
          rw [hn] at hbounds ⊢
          exact sizeSub_eq (Nat.le_add_left 1 n) hbounds.2
        simp only [if_pos hne, List.getElem?_eq_getElem hlt, hsub]
        exact ⟨_, rfl, Next.tx hpc hn hlt⟩
      · exact ⟨_, if_neg hne, Next.sent hpc (not_not.mp hne)⟩
  | echo => exact ⟨_, rfl, Next.rx hpc⟩
  | off rest =>
      cases rest with
      | nil => exact ⟨_, rfl, Next.finish hpc⟩
      | cons a rest => exact ⟨_, rfl, Next.off hpc⟩
  | done => exact ⟨s, rfl, Next.stay hpc⟩

/-- A step does the first of the accesses that are left, if any, and stays inside
the buffer. -/
theorem Next.whole_eq {data : List UInt8} {dreq : Nat → Bool} {s t : Transfer}
    (hnext : Next data dreq s t) (h : s.InBounds data) :
    t.whole data = s.whole data ∧ t.InBounds data := by
  rcases h with ⟨hsize, hbounds⟩
  cases hnext with
  | on hpc =>
      simp only [hpc, List.mem_cons, not_or] at hbounds
      refine ⟨?_, hsize, hbounds.1.2, hbounds.2⟩
      simp [whole, Transfer.rest, hpc, withoutWaits_append, withoutWaits_access,
        eventOf_eq (Ne.symm hbounds.1.1)]
  | enter hpc =>
      simp only [hpc] at hbounds
      exact ⟨by simp [whole, Transfer.rest, hpc], hsize, hbounds.2⟩
  | again hpc hlen =>
      simp only [hpc] at hbounds
      exact ⟨by simp [whole, Transfer.rest, hpc], hsize, hbounds, hlen⟩
  | leave hpc hlen =>
      have hoff : .awaitDataRequest ∉ dataModeOff := by decide
      exact ⟨by simp [whole, Transfer.rest, hpc, hlen, sendChunks], hsize, hoff⟩
  | wait hpc hlow =>
      simp only [hpc] at hbounds
      refine ⟨by simp [whole, Transfer.rest, hpc, withoutWaits], hsize, ?_⟩
      simp only [hpc]
      exact hbounds
  | cut hpc hhigh =>
      simp only [hpc] at hbounds
      have hle : min s.len 32 ≤ s.len := Nat.min_le_left _ _
      refine ⟨?_, (Nat.sub_le _ _).trans_lt hsize, ?_, hle.trans_lt hsize⟩
      · simp only [whole, Transfer.rest, hpc, sendChunks_window hbounds.1 hbounds.2]
        simp [withoutWaits, eventOf]
      · simp only
        omega
  | @tx n hpc hn hlt =>
      simp only [hpc, hn] at hbounds
      have hpos : s.pos + 1 + n = s.pos + (n + 1) := by omega
      refine ⟨?_, hsize, ?_, (Nat.lt_succ_self n).trans hbounds.2⟩
      · simp only [whole, Transfer.rest, hpc, hn, window_cons n hlt, hpos]
        simp [withoutWaits_append, withoutWaits_access, spiWriteForResponse, eventOf]
      · simp only
        omega
  | sent hpc hzero =>
      simp only [hpc, hzero] at hbounds
      exact ⟨by simp [whole, Transfer.rest, hpc, hzero], hsize, hbounds.1⟩
  | rx hpc =>
      simp only [hpc] at hbounds
      refine ⟨?_, hsize, hbounds⟩
      simp [whole, Transfer.rest, hpc, withoutWaits_append, withoutWaits_access, eventOf]
  | off hpc =>
      simp only [hpc, List.mem_cons, not_or] at hbounds
      refine ⟨?_, hsize, hbounds.2⟩
      simp [whole, Transfer.rest, hpc, withoutWaits_append, withoutWaits_access,
        eventOf_eq (Ne.symm hbounds.1)]
  | finish hpc => exact ⟨by simp [whole, Transfer.rest, hpc], hsize, trivial⟩
  | stay hpc => exact ⟨rfl, hsize, hbounds⟩

/-- Every state of a run has done a first part of the complete transfer and stays
inside the buffer. -/
theorem Reachable.refines {data : List UInt8} {dreq : Nat → Bool} {len : Nat} {s : Transfer}
    (h : Reachable data dreq len s) (hlen : len ≤ data.length) (hsize : len < 2 ^ 64) :
    s.whole data = (sdiSendBuffer (data.take len)).map eventOf ∧ s.InBounds data := by
  induction h with
  | refl =>
      have hon : .awaitDataRequest ∉ dataModeOn := by decide
      have hbounds : 0 + len ≤ data.length := by omega
      exact ⟨rfl, hsize, hon, hbounds⟩
  | tail _ hstep ih =>
      rcases step_next ih.2 dreq with ⟨t, ht, hnext⟩
      rcases hnext.whole_eq ih.2 with ⟨hwhole, hbounds⟩
      rw [ht, Option.some.injEq] at hstep
      rw [← hstep]
      exact ⟨hwhole.trans ih.1, hbounds⟩

end Transfer

/-! ## The bytes -/

/-- The bytes of two traces follow each other. -/
theorem bytesSent_append (xs ys : List Event) :
    bytesSent (xs ++ ys) = bytesSent xs ++ bytesSent ys :=
  List.flatMap_append

theorem bytesSent_cons (e : Event) (trace : List Event) :
    bytesSent (e :: trace) = bytesSent [e] ++ bytesSent trace :=
  bytesSent_append [e] trace

/-- Waits send no byte. -/
theorem bytesSent_withoutWaits (trace : List Event) :
    bytesSent (withoutWaits trace) = bytesSent trace := by
  induction trace with
  | nil => rfl
  | cons e trace ih =>
      rw [bytesSent_cons e trace, ← ih]
      by_cases he : e = .dreq false
      · rw [he]
        rfl
      · unfold withoutWaits
        rw [List.filter_cons_of_pos (by simpa using he), bytesSent_cons]

theorem bytesSent_flatMap_write (data : List UInt8) :
    bytesSent ((data.flatMap (spiWriteForResponse .sdi)).map eventOf) = data := by
  induction data with
  | nil => rfl
  | cons d data ih =>
      rw [List.flatMap_cons, List.map_append, bytesSent_append, ih]
      rfl

/-- The chunks send the data in order. -/
theorem bytesSent_sendChunks (data : List UInt8) :
    bytesSent ((sendChunks data).map eventOf) = data := by
  induction data using sendChunks.induct with
  | case1 => simp [sendChunks, bytesSent]
  | case2 d ds ih =>
      rw [sendChunks, List.map_cons, List.map_append, bytesSent_cons, bytesSent_append,
        bytesSent_flatMap_write, ih]
      exact List.take_append_drop _ _

/-- An event is a byte, or it neither sends nor spends one. -/
theorem Event.tx_or_silent (e : Event) :
    (∃ bus d, e = .access (.tx bus d)) ∨
      (bytesSent [e] = [] ∧
        (∀ s trace, bytesWhileSelected s (e :: trace) = bytesWhileSelected (execEvent s e) trace) ∧
        (e ≠ .dreq true → ∀ k, spend k e = k)) := by
  cases e with
  | dreq high =>
      cases high with
      | false => exact Or.inr ⟨rfl, fun _ _ => rfl, fun _ _ => rfl⟩
      | true => exact Or.inr ⟨rfl, fun _ _ => rfl, fun hne => absurd rfl hne⟩
  | access a =>
      cases a with
      | tx bus d => exact Or.inl ⟨bus, d, rfl⟩
      | _ => exact Or.inr ⟨rfl, fun _ _ => rfl, fun _ _ => rfl⟩

/-- The complete transfer sends the buffer. -/
theorem bytesSent_sdiSendBuffer (data : List UInt8) :
    bytesSent ((sdiSendBuffer data).map eventOf) = data := by
  have hon : bytesSent (dataModeOn.map eventOf) = [] := by decide
  have hoff : bytesSent (dataModeOff.map eventOf) = [] := by decide
  rw [sdiSendBuffer, List.map_append, List.map_append, bytesSent_append, bytesSent_append, hon,
    hoff, bytesSent_sendChunks, List.append_nil, List.nil_append]

/-! ## The select lines -/

/-- A byte is only sent while `xDcs` is low. -/
def SendsSelected (s : Controller) (e : Event) : Prop :=
  ∀ bus d, e = .access (.tx bus d) → xDcs ∈ lowLines s.softcs

/-- A look at the data request sends nothing. -/
theorem sendsSelected_dreq (s : Controller) (high : Bool) : SendsSelected s (.dreq high) :=
  fun _ _ h => Event.noConfusion h

/-- When every byte is sent to the selected port all bytes arrive. -/
theorem bytesWhileSelected_eq {s : Controller} {trace : List Event}
    (h : Along execEvent SendsSelected s trace) :
    bytesWhileSelected s trace = bytesSent trace := by
  induction trace generalizing s with
  | nil => rfl
  | cons e trace ih =>
      rcases h with ⟨hselected, hrest⟩
      have hnext := ih hrest
      rw [bytesSent_cons]
      rcases e.tx_or_silent with ⟨bus, d, rfl⟩ | ⟨hsent, hwhile, -⟩
      · rw [bytesWhileSelected, if_pos (hselected bus d rfl)]
        exact congrArg (d :: ·) hnext
      · rw [hwhile, hsent]
        exact hnext

theorem execEvent_eventOf (s : Controller) (a : Access) : execEvent s (eventOf a) = exec s a := by
  cases a <;> rfl

/-- What `SendsSelected` says about an access of the complete transfer. -/
def TxSelected (s : Controller) (a : Access) : Prop :=
  ∀ bus d, a = .tx bus d → xDcs ∈ lowLines s.softcs

/-- From any state of the controller, the complete transfer sends with `xDcs` low
and releases all lines. -/
theorem txSelected_triple (data : List UInt8) :
    Triple exec TxSelected (OnLines fun _ => True) (sdiSendBuffer data)
      (OnLines fun low => low = ∅) := by
  have hset : ∀ (s : Controller) (cs : Fin 4) (newStatus : Bool),
      TxSelected s (.storeCs cs newStatus) := fun s cs newStatus bus d h => nomatch h
  have hother : Triple exec TxSelected (OnLines fun _ => True) (spiSetCs xCs true)
      (OnLines fun _ => True) :=
    spiSetCs_triple (fun s _ bus d h => nomatch h) (fun s _ _ => hset s xCs true)
      fun _ _ => trivial
  have hown : Triple exec TxSelected (OnLines fun _ => True) (spiSetCs xDcs false)
      (OnLines fun low => xDcs ∈ low) :=
    spiSetCs_triple (fun s _ bus d h => nomatch h) (fun s _ _ => hset s xDcs false)
      fun low _ => Finset.mem_insert_self xDcs low
  have hbytes : Triple exec TxSelected (OnLines fun low => xDcs ∈ low) (sendChunks data)
      (OnLines fun low => xDcs ∈ low) := by
    apply Triple.of_forall
    intro a ha
    have hexec := (inTransfer_sendChunks data a ha).exec_eq
    apply keeps_lines
    · intro s
      rw [hexec]
    · intro s hs bus d _
      exact hs
  have hoff : Triple exec TxSelected (OnLines fun low => xDcs ∈ low) dataModeOff
      (OnLines fun low => low = ∅) :=
    spiSetCsn_triple (fun s _ bus d h => nomatch h) lowLines_all_high
  exact (hother.append hown).append (hbytes.append hoff)

/-- The buffer is sent with the data port selected, which is released at the end. -/
theorem sdiSendBuffer_selected (s : Controller) (data : List UInt8) :
    Along execEvent SendsSelected s ((sdiSendBuffer data).map eventOf) ∧
      lowLines (((sdiSendBuffer data).map eventOf).foldl execEvent s).softcs = ∅ := by
  rcases txSelected_triple data s trivial with ⟨hsafe, hend⟩
  rw [along_map, List.foldl_map]
  simp only [execEvent_eventOf]
  refine ⟨hsafe.mono ?_, hend⟩
  intro s a h bus d heq
  apply h bus d
  cases a with
  | awaitDataRequest => exact absurd heq Event.noConfusion
  | tx bus d => exact Event.access.inj heq
  | load => exact Event.access.inj heq
  | storeCs cs newStatus => exact Event.access.inj heq
  | storeCsn val => exact Event.access.inj heq
  | rx bus => exact Event.access.inj heq
  | delay => exact Event.access.inj heq

/-! ## The request line -/

/-- A byte is only sent while one is left. -/
def Paced (k : Nat) (e : Event) : Prop :=
  ∀ bus d, e = .access (.tx bus d) → 0 < k

/-- A look at the data request is always allowed. -/
theorem paced_dreq (k : Nat) (high : Bool) : Paced k (.dreq high) :=
  fun _ _ h => Event.noConfusion h

/-- No more than a chunk is ever left to send. -/
theorem spend_le {k : Nat} (h : k ≤ VS1003_CHUNK_SIZE) (trace : List Event) :
    trace.foldl spend k ≤ VS1003_CHUNK_SIZE := by
  induction trace generalizing k with
  | nil => exact h
  | cons e trace ih =>
      apply ih
      unfold spend
      split
      · exact Nat.le_refl _
      · exact (Nat.sub_le k 1).trans h
      · exact h

/-- Between two polls that find the line high, no more is sent than was left. -/
theorem length_bytesSent_le {k : Nat} {trace : List Event} (h : Along spend Paced k trace)
    (hlow : .dreq true ∉ trace) : (bytesSent trace).length ≤ k := by
  induction trace generalizing k with
  | nil => exact Nat.zero_le k
  | cons e trace ih =>
      rcases h with ⟨hpaced, hrest⟩
      rw [List.mem_cons, not_or] at hlow
      have hnext := ih hrest hlow.2
      rw [bytesSent_cons, List.length_append]
      rcases e.tx_or_silent with ⟨bus, d, rfl⟩ | ⟨hsent, -, hspend⟩
      · have hpos := hpaced bus d rfl
        change (bytesSent trace).length ≤ k - 1 at hnext
        change 1 + (bytesSent trace).length ≤ k
        omega
      · rw [hspend (Ne.symm hlow.1)] at hnext
        rw [hsent, List.length_nil, Nat.zero_add]
        exact hnext

/-- The bytes of a chunk. -/
theorem along_spend_write {k : Nat} {data : List UInt8} (h : data.length ≤ k) :
    Along spend Paced k ((data.flatMap (spiWriteForResponse .sdi)).map eventOf) := by
  induction data generalizing k with
  | nil => trivial
  | cons d data ih =>
      rw [List.length_cons] at h
      have hrest : Along spend Paced (k - 1)
          ((data.flatMap (spiWriteForResponse .sdi)).map eventOf) := ih (by omega)
      have hrx : Paced (k - 1) (.access (.rx .sdi)) := by simp [Paced]
      exact ⟨fun bus d _ => by omega, hrx, hrest⟩

/-- The chunks are paced from any remainder. -/
theorem along_spend_sendChunks (k : Nat) (data : List UInt8) :
    Along spend Paced k ((sendChunks data).map eventOf) := by
  induction data using sendChunks.induct generalizing k with
  | case1 => simp [sendChunks]
  | case2 d ds ih =>
      rw [sendChunks, List.map_cons, List.map_append, along_cons, along_append]
      have hchunk : ((d :: ds).take VS1003_CHUNK_SIZE).length ≤ VS1003_CHUNK_SIZE :=
        List.length_take_le _ _
      exact ⟨paced_dreq k true, along_spend_write hchunk, ih _⟩

/-- The buffer is paced. -/
theorem sdiSendBuffer_paced (k : Nat) (data : List UInt8) :
    Along spend Paced k ((sdiSendBuffer data).map eventOf) := by
  have hon : Along spend Paced k (dataModeOn.map eventOf) := by
    simp [dataModeOn, spiSetCs, eventOf, Paced]
  have hoff : ∀ k, Along spend Paced k (dataModeOff.map eventOf) := by
    simp [dataModeOff, spiSetCsn, eventOf, Paced]
  rw [sdiSendBuffer, List.map_append, List.map_append, along_append, along_append]
  exact ⟨hon, along_spend_sendChunks _ data, hoff _⟩

/-! ## The end of the loops -/

/-- Every wait that a call comes to has a poll that finds the line high. -/
def WaitsEnd (data : List UInt8) (dreq : Nat → Bool) (len : Nat) : Prop :=
  ∀ s, Transfer.Reachable data dreq len s → s.pc = .await → ∃ j, s.polls ≤ j ∧ dreq j = true

/-- The polls from here on that find the line low. -/
noncomputable def pollsLeft (dreq : Nat → Bool) (polls : Nat) : Nat :=
  sInf {d | dreq (polls + d) = true}

/-- A look that finds the request low is one less to come. -/
theorem pollsLeft_lt {dreq : Nat → Bool} {polls : Nat} (hlow : dreq polls = false)
    (hend : ∃ j, polls ≤ j ∧ dreq j = true) :
    pollsLeft dreq (polls + 1) < pollsLeft dreq polls := by
  rcases hend with ⟨j, hj, hhigh⟩
  have hmem : dreq (polls + pollsLeft dreq polls) = true := by
    apply Nat.sInf_mem (s := {d | dreq (polls + d) = true})
    exact ⟨j - polls, (congrArg dreq (Nat.add_sub_cancel' hj)).trans hhigh⟩
  cases hleft : pollsLeft dreq polls with
  | zero =>
      rw [hleft, Nat.add_zero, hlow] at hmem
      exact absurd hmem Bool.false_ne_true
  | succ d =>
      rw [hleft, Nat.add_comm d 1, ← Nat.add_assoc] at hmem
      exact Nat.lt_succ_of_le (Nat.sInf_le hmem)

namespace Transfer

/-- What is left of a call: the bytes that no chunk has been cut for, then the part
of the body of the loop, then the accesses or polls in this part. -/
noncomputable def left (dreq : Nat → Bool) (s : Transfer) : Nat × Nat × Nat :=
  match s.pc with
  | .on rest => (s.len + 1, 0, rest.length)
  | .send => (s.len, 2, 2 * s.chunkLength)
  | .echo => (s.len, 2, 2 * s.chunkLength + 1)
  | .test => (s.len, 1, 0)
  | .await => (s.len, 0, pollsLeft dreq s.polls)
  | .off rest => (s.len, 0, rest.length + 1)
  | .done => (s.len, 0, 0)

/-- Behind every step less is left, as long as the waits end. -/
theorem Next.left_lt {data : List UInt8} {dreq : Nat → Bool} {s t : Transfer}
    (hnext : Next data dreq s t) (h : s.InBounds data)
    (hwait : s.pc = .await → ∃ j, s.polls ≤ j ∧ dreq j = true) (hdone : s.pc ≠ .done) :
    Prod.Lex (· < ·) (Prod.Lex (· < ·) (· < ·)) (t.left dreq) (s.left dreq) := by
  cases hnext with
  | @on a rest hpc =>
      simp only [left, hpc]
      exact Prod.Lex.right _ (Prod.Lex.right _ (Nat.lt_succ_self rest.length))
  | enter hpc =>
      simp only [left, hpc]
      exact Prod.Lex.left _ _ (Nat.lt_succ_self s.len)
  | again hpc hlen =>
      simp only [left, hpc]
      exact Prod.Lex.right _ (Prod.Lex.left _ _ Nat.zero_lt_one)
  | leave hpc hlen =>
      simp only [left, hpc]
      exact Prod.Lex.right _ (Prod.Lex.left _ _ Nat.zero_lt_one)
  | wait hpc hlow =>
      simp only [left, hpc]
      exact Prod.Lex.right _ (Prod.Lex.right _ (pollsLeft_lt hlow (hwait hpc)))
  | cut hpc hhigh =>
      have hlen := h.2
      simp only [hpc] at hlen
      simp only [left, hpc]
      apply Prod.Lex.left
      omega
  | @tx n hpc hn hlt =>
      simp only [left, hpc, hn]
      apply Prod.Lex.right _ (Prod.Lex.right _ _)
      omega
  | sent hpc hzero =>
      simp only [left, hpc]
      exact Prod.Lex.right _ (Prod.Lex.left _ _ Nat.one_lt_two)
  | rx hpc =>
      simp only [left, hpc]
      exact Prod.Lex.right _ (Prod.Lex.right _ (Nat.lt_succ_self _))
  | off hpc =>
      simp only [left, hpc]
      exact Prod.Lex.right _ (Prod.Lex.right _ (Nat.lt_succ_self _))
  | finish hpc =>
      simp only [left, hpc]
      exact Prod.Lex.right _ (Prod.Lex.right _ Nat.zero_lt_one)
  | stay hpc => exact absurd hpc hdone

/-- When the waits end, so does the call. -/
theorem exists_done {data : List UInt8} {dreq : Nat → Bool} {len : Nat}
    (hlen : len ≤ data.length) (hsize : len < 2 ^ 64) (hwaits : WaitsEnd data dreq len) :
    ∃ s, Reachable data dreq len s ∧ s.pc = .done := by
  have hwf : WellFounded (Prod.Lex (· < ·) (Prod.Lex (· < ·) (· < ·)) :
      Nat × Nat × Nat → Nat × Nat × Nat → Prop) := WellFoundedRelation.wf
  apply exists_of_descent hwf (left dreq)
  intro s hs
  by_cases hdone : s.pc = .done
  · exact Or.inl hdone
  · have hbounds := (Reachable.refines hs hlen hsize).2
    rcases step_next hbounds dreq with ⟨t, ht, hnext⟩
    exact Or.inr ⟨t, ht, hnext.left_lt hbounds (hwaits s hs) hdone⟩

/-! ## Every run -/

section Run

variable {data : List UInt8} {dreq : Nat → Bool} {len : Nat} {s : Transfer}
  (h : Reachable data dreq len s) (hlen : len ≤ data.length) (hsize : len < 2 ^ 64)

include h hlen hsize

/-- A condition that holds along the complete transfer, and on the polls that find
the line low, holds along a run. -/
theorem Reachable.along {σ : Type} {run : σ → Event → σ} {ok : σ → Event → Prop} {c : σ}
    (hidle : ∀ c, run c (.dreq false) = c ∧ ok c (.dreq false))
    (hwhole : Along run ok c ((sdiSendBuffer (data.take len)).map eventOf)) :
    Along run ok c s.trace := by
  rw [← (Reachable.refines h hlen hsize).1, whole, along_append] at hwhole
  apply (along_filter_of_idle _ c s.trace).mp hwhole.1
  intro c e he
  have hlow : e = .dreq false := by simpa using he
  rw [hlow]
  exact hidle c

/-- The bytes that have been sent are the first of the buffer. -/
theorem Reachable.bytesSent_append_rest :
    bytesSent s.trace ++ bytesSent ((s.rest data).map eventOf) = data.take len := by
  rw [← bytesSent_withoutWaits, ← bytesSent_append, ← bytesSent_sdiSendBuffer (data.take len)]
  exact congrArg bytesSent (Reachable.refines h hlen hsize).1

/-- At the end the complete transfer has been done. -/
theorem Reachable.withoutWaits_eq (hdone : s.pc = .done) :
    withoutWaits s.trace = (sdiSendBuffer (data.take len)).map eventOf := by
  have hwhole := (Reachable.refines h hlen hsize).1
  simpa [whole, Transfer.rest, hdone] using hwhole

/-- In every reachable state all bytes sent have arrived. -/
theorem Reachable.bytesWhileSelected_eq (c : Controller) :
    bytesWhileSelected c s.trace = bytesSent s.trace := by
  apply Spi.bytesWhileSelected_eq
  apply h.along hlen hsize (fun c => ⟨rfl, sendsSelected_dreq c false⟩)
  exact (sdiSendBuffer_selected c (data.take len)).1

/-- In every reachable state the bytes sent were paced. -/
theorem Reachable.paced : Along spend Paced 0 s.trace :=
  h.along hlen hsize (fun k => ⟨rfl, paced_dreq k false⟩) (sdiSendBuffer_paced 0 (data.take len))

/-- A part of a run in which no poll finds the line high sends a chunk at most. -/
theorem Reachable.length_bytesSent_le {first part last : List Event}
    (htrace : first ++ part ++ last = s.trace) (hlow : .dreq true ∉ part) :
    (bytesSent part).length ≤ VS1003_CHUNK_SIZE := by
  have hpaced := h.paced hlen hsize
  rw [← htrace, along_append, along_append] at hpaced
  exact (Spi.length_bytesSent_le hpaced.1.2 hlow).trans (spend_le (Nat.zero_le _) first)

/-- Before the first poll that finds the line high, nothing is sent. -/
theorem Reachable.bytesSent_eq_nil {first last : List Event}
    (htrace : first ++ last = s.trace) (hlow : .dreq true ∉ first) : bytesSent first = [] := by
  have hpaced := h.paced hlen hsize
  rw [← htrace, along_append] at hpaced
  have hlength := Spi.length_bytesSent_le hpaced.1 hlow
  exact List.eq_nil_of_length_eq_zero (Nat.le_zero.mp hlength)

/-- At the end all lines are released. -/
theorem Reachable.lowLines_eq_empty (c : Controller) (hdone : s.pc = .done) :
    lowLines (s.trace.foldl execEvent c).softcs = ∅ := by
  have hidle : ∀ c e, decide (e ≠ .dreq false) = false → execEvent c e = c := by
    intro c e he
    have hlow : e = .dreq false := by simpa using he
    rw [hlow]
    rfl
  rw [← foldl_filter_of_idle hidle]
  change lowLines ((withoutWaits s.trace).foldl execEvent c).softcs = ∅
  rw [Reachable.withoutWaits_eq h hlen hsize hdone]
  exact (sdiSendBuffer_selected c (data.take len)).2

end Run

end Transfer

/-- For every buffer, every length and every behaviour of the request line: a call
never gets stuck; the bytes that it has sent while `xDcs` is low are all bytes that
it has sent, and the first of the buffer; a part of the call in which no poll finds
the line high sends at most 32 bytes, and nothing if it is the beginning; behind the
call the buffer has been sent and both lines are high; and it ends if every wait
does. -/
theorem sdiSendBuffer_streams (data : List UInt8) (len : Nat) (hlen : len ≤ data.length)
    (hsize : len < 2 ^ 64) (dreq : Nat → Bool) (c : Controller) :
    (∀ s, Transfer.Reachable data dreq len s →
      (∃ t, s.step data dreq = some t) ∧
      bytesWhileSelected c s.trace = bytesSent s.trace ∧
      bytesSent s.trace <+: data.take len ∧
      (∀ first part last, first ++ part ++ last = s.trace → .dreq true ∉ part →
        (bytesSent part).length ≤ VS1003_CHUNK_SIZE) ∧
      (∀ first last, first ++ last = s.trace → .dreq true ∉ first → bytesSent first = []) ∧
      (s.pc = .done →
        bytesWhileSelected c s.trace = data.take len ∧
        xCs ∉ lowLines (s.trace.foldl execEvent c).softcs ∧
        xDcs ∉ lowLines (s.trace.foldl execEvent c).softcs)) ∧
    (WaitsEnd data dreq len → ∃ s, Transfer.Reachable data dreq len s ∧ s.pc = .done) := by
  constructor
  · intro s hs
    have hbounds := (hs.refines hlen hsize).2
    have hprefix := hs.bytesSent_append_rest hlen hsize
    have hselected := hs.bytesWhileSelected_eq hlen hsize c
    refine ⟨?_, hselected, ⟨_, hprefix⟩, ?_, ?_, ?_⟩
    · rcases Transfer.step_next hbounds dreq with ⟨t, ht, -⟩
      exact ⟨t, ht⟩
    · intro first part last
      exact hs.length_bytesSent_le hlen hsize
    · intro first last
      exact hs.bytesSent_eq_nil hlen hsize
    · intro hdone
      have hlow := hs.lowLines_eq_empty hlen hsize c hdone
      rw [hlow]
      refine ⟨?_, Finset.notMem_empty xCs, Finset.notMem_empty xDcs⟩
      have hrest : s.rest data = [] := by simp [Transfer.rest, hdone]
      rw [hrest, List.map_nil] at hprefix
      rw [hselected, ← hprefix]
      exact (List.append_nil _).symm
  · exact Transfer.exists_done hlen hsize

/-- Three bytes of a buffer of four, on a line that is low at every other poll. -/
theorem sdiSendBuffer_streams_three :
    ∃ s, Transfer.Reachable [1, 2, 3, 4] (fun i => i % 2 == 1) 3 s ∧ s.pc = .done ∧
      bytesWhileSelected ⟨0xff, 0⟩ s.trace = [1, 2, 3] := by
  rcases sdiSendBuffer_streams [1, 2, 3, 4] 3 (by decide) (by decide) (fun i => i % 2 == 1)
    ⟨0xff, 0⟩ with ⟨hrun, hend⟩
  have hwaits : WaitsEnd [1, 2, 3, 4] (fun i => i % 2 == 1) 3 := by
    intro s _ _
    have hhigh : (2 * s.polls + 1) % 2 = 1 := by omega
    exact ⟨2 * s.polls + 1, by omega, beq_iff_eq.mpr hhigh⟩
  rcases hend hwaits with ⟨s, hs, hdone⟩
  exact ⟨s, hs, hdone, ((hrun s hs).2.2.2.2.2 hdone).1⟩

end Spi
end Ls2kMorse
