import Ls2kMorse.Spi.ChipSelect

/-!
# Select lines of the codec

The codec has two select lines, `xCs` for register accesses (SCI) and `xDcs` for
data transfers (SDI).  `data_mode_on` releases the other line before it asserts
its own, `control_mode_on` asserts its own line first.  After a complete
operation the order does not matter, since both lines are high; after a transfer
that was cut off by the deletion of its thread, `xDcs` may still be low.

Main results:

- Theorem `readRegister_triple` and its siblings: complete operations started
  with both lines high, or a transfer started with `xDcs` low.
- Theorem `sdiCut_triple`: what a transfer leaves behind that was cut off.
- Theorem `not_along_controlModeOn`: a register access after such a transfer
  asserts both lines.
- Theorem `along_operations_iff`: the exact condition for a sequence of
  operations.
-/

namespace Ls2kMorse
namespace Spi

open Lib.Trace

/-! ## Functions of `vs1003.c` -/

/-- The select line of the data port. -/
def xDcs : Fin 4 := 1

/-- The select line of the command port. -/
def xCs : Fin 4 := 2

/-- The bytes between two waits for the data request. -/
def VS1003_CHUNK_SIZE : Nat := 32

/-- The first byte of a register write. -/
def VS_WRITE_COMMAND : UInt8 := 0x02

/-- The first byte of a register read. -/
def VS_READ_COMMAND : UInt8 := 0x03

/-- `control_mode_on`: selects the command port. -/
def controlModeOn : List Access :=
  spiSetCs xCs false ++ spiSetCs xDcs true

/-- `control_mode_off`: releases every line. -/
def controlModeOff : List Access :=
  spiSetCsn 0xff

/-- `data_mode_on`: selects the data port. -/
def dataModeOn : List Access :=
  spiSetCs xCs true ++ spiSetCs xDcs false

/-- `data_mode_off`: releases every line. -/
def dataModeOff : List Access :=
  spiSetCsn 0xff

/-- The bytes of `read_register`. -/
def readBytes (reg : UInt8) : List Access :=
  spiWriteForResponse .sci VS_READ_COMMAND ++ spiWriteForResponse .sci reg ++
    spiWriteForResponse .sci 0xFF ++ spiWriteForResponse .sci 0xFF

/-- `read_register`: waits, then sends the command, the register and two bytes to
fill. -/
def readRegister (reg : UInt8) : List Access :=
  [.awaitDataRequest] ++ controlModeOn ++ readBytes reg ++ controlModeOff

/-- The bytes of `write_register` with the waits around them. -/
def writeBytes (reg : UInt8) (value : UInt16) : List Access :=
  [.delay] ++ spiWriteForResponse .sci VS_WRITE_COMMAND ++ spiWriteForResponse .sci reg ++
    spiWriteForResponse .sci (value >>> 8).toUInt8 ++
    spiWriteForResponse .sci (value &&& 0xff).toUInt8 ++ [.delay, .awaitDataRequest]

/-- `write_register`: the command, the register and the two bytes of the value. -/
def writeRegister (reg : UInt8) (value : UInt16) : List Access :=
  controlModeOn ++ writeBytes reg value ++ controlModeOff

/-- The loop of `sdi_send_buffer`: wait, then send a chunk. -/
def sendChunks : List UInt8 → List Access
  | [] => []
  | d :: data =>
      .awaitDataRequest ::
        (((d :: data).take VS1003_CHUNK_SIZE).flatMap (spiWriteForResponse .sdi) ++
          sendChunks ((d :: data).drop VS1003_CHUNK_SIZE))
termination_by data => data.length
decreasing_by
  simp only [VS1003_CHUNK_SIZE, List.length_drop, List.length_cons]
  omega

/-- `sdi_send_buffer`: the data in chunks, with the data port selected. -/
def sdiSendBuffer (data : List UInt8) : List Access :=
  dataModeOn ++ (sendChunks data ++ dataModeOff)

/-- One use of the codec; `sdiCut data n` is a transfer whose thread is deleted
after `n` accesses. -/
inductive Operation where
  | readRegister (reg : UInt8)
  | writeRegister (reg : UInt8) (value : UInt16)
  | sdiSendBuffer (data : List UInt8)
  | sdiCut (data : List UInt8) (n : Nat)
deriving Repr, DecidableEq

/-- The accesses of one use of the codec. -/
def Operation.accesses : Operation → List Access
  | .readRegister reg => Spi.readRegister reg
  | .writeRegister reg value => Spi.writeRegister reg value
  | .sdiSendBuffer data => Spi.sdiSendBuffer data
  | .sdiCut data n => (Spi.sdiSendBuffer data).take n

/-! ## Safety and its condition -/

/-- The interface whose byte an access exchanges. -/
def Access.bus : Access → Option Bus
  | .tx bus _ => some bus
  | .rx bus => some bus
  | _ => none

/-- The select line of an interface of the codec. -/
def codecLine : Bus → Option (Fin 4)
  | .sci => some xCs
  | .sdi => some xDcs
  | .ads => none

/-- The two lines of the codec are not low together. -/
def Apart (low : Finset (Fin 4)) : Prop :=
  ¬ (xCs ∈ low ∧ xDcs ∈ low)

/-- No line is low that was not low before the first operation. -/
def Idle (low₀ low : Finset (Fin 4)) : Prop :=
  low ⊆ low₀

/-- A line is low, and no other that was not low before the first operation. -/
def Selected (low₀ : Finset (Fin 4)) (line : Fin 4) (low : Finset (Fin 4)) : Prop :=
  line ∈ low ∧ low ⊆ insert line low₀

/-- The condition on one access: behind it the two lines of the codec are not low
together, and a byte is exchanged with only the line of its interface low. -/
def CodecSafe (low₀ : Finset (Fin 4)) (s : Controller) (i : Access) : Prop :=
  OnLines Apart (exec s i) ∧
    ∀ bus, i.bus = some bus →
      ∃ line, codecLine bus = some line ∧ OnLines (Selected low₀ line) s

/-- Whether `xDcs` is low after a transfer has been cut off behind `n` accesses:
its store in `data_mode_on` is the fourth access, the store of `data_mode_off`
the last. -/
def leavesDcsLow (dcsLow : Bool) (data : List UInt8) (n : Nat) : Bool :=
  decide (n < (sdiSendBuffer data).length) && (dcsLow || decide (4 ≤ n))

/-- No register access follows a transfer that was cut off with `xDcs` low,
unless a transfer that raised the line again came in between. -/
def NoSciAfterCut : Bool → List Operation → Prop
  | _, [] => True
  | dcsLow, .readRegister _ :: ops => dcsLow = false ∧ NoSciAfterCut false ops
  | dcsLow, .writeRegister _ _ :: ops => dcsLow = false ∧ NoSciAfterCut false ops
  | _, .sdiSendBuffer _ :: ops => NoSciAfterCut false ops
  | dcsLow, .sdiCut data n :: ops => NoSciAfterCut (leavesDcsLow dcsLow data n) ops

/-- The lines between two operations: idle, or `xDcs` left low. -/
def Between (low₀ : Finset (Fin 4)) (dcsLow : Bool) (low : Finset (Fin 4)) : Prop :=
  if dcsLow then Selected low₀ xDcs low else Idle low₀ low

/-! ## Driving the lines -/

section Lines

variable {low₀ low : Finset (Fin 4)}

/-- Driving a line low selects it. -/
theorem Selected.drive {line : Fin 4} (h : low ⊆ insert line low₀) :
    Selected low₀ line (driveLine low line false) :=
  ⟨Finset.mem_insert_self _ _, Finset.insert_subset (Finset.mem_insert_self _ _) h⟩

/-- Releasing another line keeps the selection. -/
theorem Selected.release {line other : Fin 4} (hne : line ≠ other)
    (h : Selected low₀ line low) : Selected low₀ line (driveLine low other true) :=
  ⟨Finset.mem_erase.mpr ⟨hne, h.1⟩, (Finset.erase_subset _ _).trans h.2⟩

/-- Between two transfers at most the data port is low in addition. -/
theorem Between.subset {dcsLow : Bool} (h : Between low₀ dcsLow low) :
    low ⊆ insert xDcs low₀ := by
  cases dcsLow with
  | false => exact Finset.Subset.trans h (Finset.subset_insert _ _)
  | true => exact h.2

/-- Releasing the command port keeps the state between transfers. -/
theorem Between.release {dcsLow : Bool} (h : Between low₀ dcsLow low) :
    Between low₀ dcsLow (driveLine low xCs true) := by
  cases dcsLow with
  | false => exact (Finset.erase_subset _ _).trans h
  | true => exact Selected.release (by decide) h

variable (hcs : xCs ∉ low₀) (hdcs : xDcs ∉ low₀)

include hcs in

/-- With the ports released they are apart. -/
theorem Idle.apart (h : Idle low₀ low) : Apart low :=
  fun hboth => hcs (h hboth.1)

include hcs in

/-- Between two transfers the ports are apart. -/
theorem Between.apart {dcsLow : Bool} (h : Between low₀ dcsLow low) : Apart low := by
  rintro ⟨hmem, -⟩
  rcases Finset.mem_insert.mp (h.subset hmem) with heq | hmem
  · exact absurd heq (by decide)
  · exact hcs hmem

include hcs hdcs in

/-- With one port selected the ports are apart. -/
theorem Selected.apart (bus : Bus) {line : Fin 4} (hline : codecLine bus = some line)
    (h : Selected low₀ line low) : Apart low := by
  rintro ⟨hmemCs, hmemDcs⟩
  cases bus with
  | sci =>
      obtain rfl : xCs = line := Option.some.inj hline
      rcases Finset.mem_insert.mp (h.2 hmemDcs) with heq | hmem
      · exact absurd heq (by decide)
      · exact hdcs hmem
  | sdi =>
      obtain rfl : xDcs = line := Option.some.inj hline
      rcases Finset.mem_insert.mp (h.2 hmemCs) with heq | hmem
      · exact absurd heq (by decide)
      · exact hcs hmem
  | ads => exact absurd hline (Option.some_ne_none line).symm

end Lines

/-! ## Rules for the functions -/

section Rules

variable {low₀ : Finset (Fin 4)} {p q : Finset (Fin 4) → Prop}

/-- Outside a byte, an access is safe when it leaves the lines apart. -/
theorem codecSafe_of_apart {s : Controller} {i : Access} (hbus : i.bus = none)
    (h : OnLines Apart (exec s i)) : CodecSafe low₀ s i := by
  apply And.intro h
  intro bus hbus'
  rw [hbus] at hbus'
  exact absurd hbus' (Option.some_ne_none bus).symm

/-- Driving a line takes one condition on the lines to another. -/
theorem setCs_triple {cs : Fin 4} {newStatus : Bool} (hp : ∀ low, p low → Apart low)
    (hq : ∀ low, q low → Apart low) (hdrive : ∀ low, p low → q (driveLine low cs newStatus)) :
    Triple exec (CodecSafe low₀) (OnLines p) (spiSetCs cs newStatus) (OnLines q) := by
  apply spiSetCs_triple _ _ hdrive
  · intro s hs
    exact codecSafe_of_apart rfl (hp _ hs)
  · intro s hval _
    apply codecSafe_of_apart rfl
    change Apart (lowLines (withCs s.val cs newStatus))
    rw [lowLines_withCs]
    exact hq _ (hdrive _ hval)

/-- Storing `0xff` releases all lines. -/
theorem releaseAll_triple :
    Triple exec (CodecSafe low₀) (OnLines p) (spiSetCsn 0xff) (OnLines (Idle low₀)) := by
  apply spiSetCsn_triple
  · intro s _
    apply codecSafe_of_apart rfl
    change Apart (lowLines 0xff)
    rw [lowLines_all_high]
    exact fun h => absurd h.1 (Finset.notMem_empty _)
  · rw [lowLines_all_high]
    exact Finset.empty_subset _

/-- A wait, or half of a byte on an interface. -/
def InTransfer (bus : Bus) (i : Access) : Prop :=
  i = .awaitDataRequest ∨ i = .delay ∨ i = .rx bus ∨ ∃ data, i = .tx bus data

/-- A byte inside a transfer leaves the lines. -/
theorem InTransfer.exec_eq {bus : Bus} {i : Access} (h : InTransfer bus i) (s : Controller) :
    exec s i = s := by
  rcases h with rfl | rfl | rfl | ⟨data, rfl⟩ <;> rfl

/-- Sending a byte is inside a transfer. -/
theorem inTransfer_write (bus : Bus) (data : UInt8) :
    ∀ i ∈ spiWriteForResponse bus data, InTransfer bus i := by
  intro i hi
  rcases List.mem_cons.mp hi with rfl | hi
  · exact Or.inr (Or.inr (Or.inr ⟨data, rfl⟩))
  · rcases List.mem_singleton.mp hi with rfl
    exact Or.inr (Or.inr (Or.inl rfl))

/-- Sending the chunks is inside a transfer. -/
theorem inTransfer_sendChunks (data : List UInt8) :
    ∀ i ∈ sendChunks data, InTransfer .sdi i := by
  induction data using sendChunks.induct with
  | case1 =>
      intro i hi
      rw [sendChunks] at hi
      exact absurd hi List.not_mem_nil
  | case2 d ds ih =>
      intro i hi
      rw [sendChunks] at hi
      rcases List.mem_cons.mp hi with rfl | hi
      · exact Or.inl rfl
      · rcases List.mem_append.mp hi with hi | hi
        · rcases List.mem_flatMap.mp hi with ⟨data, -, hi⟩
          exact inTransfer_write .sdi data i hi
        · exact ih i hi

/-- Reading a register is inside a transfer. -/
theorem inTransfer_readBytes (reg : UInt8) : ∀ i ∈ readBytes reg, InTransfer .sci i := by
  intro i hi
  simp only [readBytes, List.mem_append] at hi
  rcases hi with ((hi | hi) | hi) | hi <;> exact inTransfer_write .sci _ i hi

/-- Writing a register is inside a transfer. -/
theorem inTransfer_writeBytes (reg : UInt8) (value : UInt16) :
    ∀ i ∈ writeBytes reg value, InTransfer .sci i := by
  intro i hi
  simp only [writeBytes, List.mem_append] at hi
  rcases hi with ((((hi | hi) | hi) | hi) | hi) | hi
  · exact Or.inr (Or.inl (List.mem_singleton.mp hi))
  · exact inTransfer_write .sci _ i hi
  · exact inTransfer_write .sci _ i hi
  · exact inTransfer_write .sci _ i hi
  · exact inTransfer_write .sci _ i hi
  · rcases List.mem_cons.mp hi with rfl | hi
    · exact Or.inr (Or.inl rfl)
    · exact Or.inl (List.mem_singleton.mp hi)

variable (hcs : xCs ∉ low₀) (hdcs : xDcs ∉ low₀)

include hcs hdcs

/-- With its line selected, an interface may wait and exchange bytes. -/
theorem transfer_triple (bus : Bus) {line : Fin 4} (hline : codecLine bus = some line)
    {i : Access} (hi : InTransfer bus i) :
    Triple exec (CodecSafe low₀) (OnLines (Selected low₀ line)) [i]
      (OnLines (Selected low₀ line)) := by
  apply keeps_lines
  · intro s
    rw [hi.exec_eq]
  · intro s hs
    constructor
    · rw [hi.exec_eq]
      exact Selected.apart hcs hdcs bus hline hs
    · intro bus' hbus'
      have heq : bus' = bus := by
        rcases hi with rfl | rfl | rfl | ⟨data, rfl⟩
        · exact absurd hbus' (Option.some_ne_none bus').symm
        · exact absurd hbus' (Option.some_ne_none bus').symm
        · exact (Option.some.inj hbus').symm
        · exact (Option.some.inj hbus').symm
      rw [heq]
      exact ⟨line, hline, hs⟩

/-- Selecting the command port is safe from rest. -/
theorem controlModeOn_triple :
    Triple exec (CodecSafe low₀) (OnLines (Idle low₀)) controlModeOn
      (OnLines (Selected low₀ xCs)) := by
  have hselected : ∀ low, Selected low₀ xCs low → Apart low := fun low h =>
    Selected.apart hcs hdcs .sci rfl h
  have hown : Triple exec (CodecSafe low₀) (OnLines (Idle low₀)) (spiSetCs xCs false)
      (OnLines (Selected low₀ xCs)) := by
    apply setCs_triple (fun low h => Idle.apart hcs h) hselected
    intro low h
    exact Selected.drive (Finset.Subset.trans h (Finset.subset_insert _ _))
  have hother : Triple exec (CodecSafe low₀) (OnLines (Selected low₀ xCs))
      (spiSetCs xDcs true) (OnLines (Selected low₀ xCs)) :=
    setCs_triple hselected hselected fun low h => Selected.release (by decide) h
  exact hown.append hother

/-- Selecting the data port is safe between transfers. -/
theorem dataModeOn_triple (dcsLow : Bool) :
    Triple exec (CodecSafe low₀) (OnLines (Between low₀ dcsLow)) dataModeOn
      (OnLines (Selected low₀ xDcs)) := by
  have hbetween : ∀ low, Between low₀ dcsLow low → Apart low := fun low h =>
    Between.apart hcs h
  have hother : Triple exec (CodecSafe low₀) (OnLines (Between low₀ dcsLow))
      (spiSetCs xCs true) (OnLines (Between low₀ dcsLow)) :=
    setCs_triple hbetween hbetween fun low h => h.release
  have hown : Triple exec (CodecSafe low₀) (OnLines (Between low₀ dcsLow))
      (spiSetCs xDcs false) (OnLines (Selected low₀ xDcs)) := by
    apply setCs_triple hbetween fun low h => Selected.apart hcs hdcs .sdi rfl h
    intro low h
    exact Selected.drive h.subset
  exact hother.append hown

/-! ## Complete and cut operations -/

/-- A register read is safe from rest. -/
theorem readRegister_triple (reg : UInt8) :
    Triple exec (CodecSafe low₀) (OnLines (Idle low₀)) (readRegister reg)
      (OnLines (Idle low₀)) := by
  have hawait : Triple exec (CodecSafe low₀) (OnLines (Idle low₀)) [.awaitDataRequest]
      (OnLines (Idle low₀)) :=
    keeps_lines (fun _ => rfl) fun s hs =>
      codecSafe_of_apart rfl (Idle.apart hcs hs)
  have hbytes := Triple.of_forall fun i hi =>
    transfer_triple hcs hdcs .sci rfl (inTransfer_readBytes reg i hi)
  exact ((hawait.append (controlModeOn_triple hcs hdcs)).append hbytes).append releaseAll_triple

/-- A register write is safe from rest. -/
theorem writeRegister_triple (reg : UInt8) (value : UInt16) :
    Triple exec (CodecSafe low₀) (OnLines (Idle low₀)) (writeRegister reg value)
      (OnLines (Idle low₀)) := by
  have hbytes := Triple.of_forall fun i hi =>
    transfer_triple hcs hdcs .sci rfl (inTransfer_writeBytes reg value i hi)
  exact ((controlModeOn_triple hcs hdcs).append hbytes).append releaseAll_triple

/-- A buffer is sent safely between transfers. -/
theorem sdiSendBuffer_triple (dcsLow : Bool) (data : List UInt8) :
    Triple exec (CodecSafe low₀) (OnLines (Between low₀ dcsLow)) (sdiSendBuffer data)
      (OnLines (Idle low₀)) := by
  have hbytes := Triple.of_forall fun i hi =>
    transfer_triple hcs hdcs .sdi rfl (inTransfer_sendChunks data i hi)
  exact (dataModeOn_triple hcs hdcs dcsLow).append (hbytes.append releaseAll_triple)

/-- A transfer that is cut off leaves the lines as they were up to the store that
asserts `xDcs`, asserted up to the last store, and released behind it. -/
theorem sdiCut_triple (dcsLow : Bool) (data : List UInt8) (n : Nat) :
    Triple exec (CodecSafe low₀) (OnLines (Between low₀ dcsLow)) ((sdiSendBuffer data).take n)
      (OnLines (Between low₀ (leavesDcsLow dcsLow data n))) := by
  by_cases hend : n < (sdiSendBuffer data).length
  · by_cases hstore : 4 ≤ n
    · have hflag : leavesDcsLow dcsLow data n = true := by
        simp [leavesDcsLow, hend, hstore]
      have hinside : n - 4 ≤ (sendChunks data).length := by
        have hlength : (sdiSendBuffer data).length = 4 + ((sendChunks data).length + 1) := by
          simp only [sdiSendBuffer, List.length_append]
          rfl
        omega
      have htake : (sdiSendBuffer data).take n =
          dataModeOn ++ (sendChunks data).take (n - 4) := by
        rw [sdiSendBuffer, List.take_append, List.take_of_length_le hstore]
        change dataModeOn ++ (sendChunks data ++ dataModeOff).take (n - 4) = _
        rw [List.take_append_of_le_length hinside]
      rw [hflag, htake]
      have hbytes := Triple.take (fun i hi =>
        transfer_triple hcs hdcs .sdi rfl (inTransfer_sendChunks data i hi)) (n - 4)
      exact (dataModeOn_triple hcs hdcs dcsLow).append hbytes
    · have hflag : leavesDcsLow dcsLow data n = dcsLow := by
        simp [leavesDcsLow, hend, hstore]
      have hapart : ∀ low, Between low₀ dcsLow low → Apart low := fun low h =>
        Between.apart hcs h
      have hload : Triple exec (CodecSafe low₀) (OnLines (Between low₀ dcsLow)) [.load]
          (OnLines (Between low₀ dcsLow)) :=
        keeps_lines (fun _ => rfl) fun s hs => codecSafe_of_apart rfl (hapart _ hs)
      have hrelease : Triple exec (CodecSafe low₀) (OnLines (Between low₀ dcsLow))
          (spiSetCs xCs true) (OnLines (Between low₀ dcsLow)) :=
        setCs_triple hapart hapart fun low h => h.release
      rw [hflag]
      have hcases : n = 0 ∨ n = 1 ∨ n = 2 ∨ n = 3 := by omega
      rcases hcases with rfl | rfl | rfl | rfl
      · exact Triple.nil
      · exact hload
      · exact hrelease
      · exact hrelease.append hload
  · have hflag : leavesDcsLow dcsLow data n = false := by
      simp [leavesDcsLow, hend]
    rw [hflag, List.take_of_length_le (Nat.le_of_not_lt hend)]
    exact sdiSendBuffer_triple hcs hdcs dcsLow data

omit hcs hdcs in
/-- With `xDcs` still low, `control_mode_on` asserts both lines. -/
theorem not_along_controlModeOn {s : Controller} (hs : OnLines (Selected low₀ xDcs) s)
    (rest : List Access) : ¬ Along exec (CodecSafe low₀) s (controlModeOn ++ rest) := by
  intro h
  have hstore : CodecSafe low₀ (exec s .load) (.storeCs xCs false) := h.2.1
  apply hstore.1
  change xCs ∈ lowLines (withCs s.softcs xCs false) ∧ xDcs ∈ lowLines (withCs s.softcs xCs false)
  rw [lowLines_withCs]
  exact ⟨Finset.mem_insert_self _ _, Finset.mem_insert_of_mem hs.1⟩

omit hcs hdcs in

/-- With the data port selected a register read is not safe. -/
theorem not_along_readRegister (reg : UInt8) {s : Controller}
    (hs : OnLines (Selected low₀ xDcs) s) (rest : List Access) :
    ¬ Along exec (CodecSafe low₀) s (readRegister reg ++ rest) := by
  intro h
  exact not_along_controlModeOn hs (readBytes reg ++ controlModeOff ++ rest) h.2

omit hcs hdcs in

/-- With the data port selected a register write is not safe. -/
theorem not_along_writeRegister (reg : UInt8) (value : UInt16) {s : Controller}
    (hs : OnLines (Selected low₀ xDcs) s) (rest : List Access) :
    ¬ Along exec (CodecSafe low₀) s (writeRegister reg value ++ rest) := by
  rw [writeRegister, List.append_assoc, List.append_assoc]
  exact not_along_controlModeOn hs _

omit hcs hdcs in
/-- A register access between two operations is safe if and only if `xDcs` is not
low. -/
theorem along_register_iff {accesses rest : List Access} {dcsLow : Bool} {s : Controller}
    {P : Prop} (hs : OnLines (Between low₀ dcsLow) s)
    (htriple : Triple exec (CodecSafe low₀) (OnLines (Idle low₀)) accesses (OnLines (Idle low₀)))
    (hnot : ∀ {s}, OnLines (Selected low₀ xDcs) s →
      ¬ Along exec (CodecSafe low₀) s (accesses ++ rest))
    (hrest : ∀ s', OnLines (Idle low₀) s' → (Along exec (CodecSafe low₀) s' rest ↔ P)) :
    Along exec (CodecSafe low₀) s (accesses ++ rest) ↔ dcsLow = false ∧ P := by
  cases dcsLow with
  | false =>
      rw [and_iff_right rfl]
      exact htriple.along_append_iff hs hrest
  | true =>
      apply iff_of_false (hnot hs)
      intro h
      exact Bool.noConfusion h.1

/-! ## Sequences of operations -/

/-- From every state between two operations, a sequence is safe exactly when no
register access meets a transfer that was cut off with `xDcs` low. -/
theorem along_operations_iff (ops : List Operation) (dcsLow : Bool) {s : Controller}
    (hs : OnLines (Between low₀ dcsLow) s) :
    Along exec (CodecSafe low₀) s (ops.flatMap Operation.accesses) ↔
      NoSciAfterCut dcsLow ops := by
  induction ops generalizing dcsLow s with
  | nil => exact Iff.rfl
  | cons op ops ih =>
      rw [List.flatMap_cons]
      cases op with
      | readRegister reg =>
          exact along_register_iff hs (readRegister_triple hcs hdcs reg)
            (fun hlow => not_along_readRegister reg hlow _) fun _ hs' => ih false hs'
      | writeRegister reg value =>
          exact along_register_iff hs (writeRegister_triple hcs hdcs reg value)
            (fun hlow => not_along_writeRegister reg value hlow _) fun _ hs' => ih false hs'
      | sdiSendBuffer data =>
          apply (sdiSendBuffer_triple hcs hdcs dcsLow data).along_append_iff hs
          intro s' hs'
          exact ih false hs'
      | sdiCut data n =>
          apply (sdiCut_triple hcs hdcs dcsLow data n).along_append_iff hs
          intro s' hs'
          exact ih _ hs'

end Rules

/-- Started with both lines of the codec high, any sequence of register accesses
and complete or cut transfers keeps the lines apart at every access and exchanges
every byte with only its own line low, if and only if no register access follows
a transfer that was cut off with `xDcs` low and not yet raised again. -/
theorem codecSafe_operations_iff (s : Controller) (hcs : xCs ∉ lowLines s.softcs)
    (hdcs : xDcs ∉ lowLines s.softcs) (ops : List Operation) :
    Along exec (CodecSafe (lowLines s.softcs)) s (ops.flatMap Operation.accesses) ↔
      NoSciAfterCut false ops :=
  along_operations_iff hcs hdcs ops false (Finset.Subset.refl _)

/-- A transfer that is cut off before `xDcs` is asserted, between two register
accesses. -/
theorem codecSafe_operations_early_cut :
    Along exec (CodecSafe (lowLines (⟨0xff, 0⟩ : Controller).softcs)) ⟨0xff, 0⟩
        ([.readRegister 0x09, .sdiCut [0x55] 3, .writeRegister 0x0b 0].flatMap
          Operation.accesses) ↔
      NoSciAfterCut false [.readRegister 0x09, .sdiCut [0x55] 3, .writeRegister 0x0b 0] :=
  codecSafe_operations_iff ⟨0xff, 0⟩ (by decide) (by decide) _

/-- A transfer that is cut off while it waits for its first byte, and a register
read: three accesses later both lines are low. -/
theorem codecSafe_operations_late_cut :
    lowLines ((([.sdiCut [0x55] 5, .readRegister 0x09].flatMap Operation.accesses).take 8).foldl
        exec ⟨0xff, 0⟩).softcs = {xDcs, xCs} ∧
      ¬ Along exec (CodecSafe (lowLines (⟨0xff, 0⟩ : Controller).softcs)) ⟨0xff, 0⟩
        ([.sdiCut [0x55] 5, .readRegister 0x09].flatMap Operation.accesses) := by
  have hcut : leavesDcsLow false [0x55] 5 = true := by
    simp [leavesDcsLow, sdiSendBuffer, sendChunks, VS1003_CHUNK_SIZE, dataModeOn, dataModeOff,
      spiSetCs, spiSetCsn, spiWriteForResponse]
  constructor
  · simp only [List.flatMap_cons, List.flatMap_nil, Operation.accesses, sdiSendBuffer, sendChunks]
    decide
  · intro h
    have hcond := (along_operations_iff (by decide) (by decide) _ false
      (Finset.Subset.refl _)).mp h
    simp only [NoSciAfterCut, hcut] at hcond
    exact Bool.noConfusion hcond.1

end Spi
end Ls2kMorse
