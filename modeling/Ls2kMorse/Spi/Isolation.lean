import Ls2kMorse.Spi.Vs1003
import Ls2kMorse.Spi.Ads1118

/-!
# Isolation of the devices on the shared controller

The codec driver edits single lines through `spi_set_cs`, the converter driver
stores whole bytes through `spi_set_csn`.  The byte `0xbf` that selects the
converter clears the level bit of line 2, which is the line `xCs` of the codec.

Main results:

- Theorem `getADCValue_selects_codec`: a conversion is never isolated.
- Theorem `isolated_operations_iff`: a sequence of complete operations is
  isolated if and only if it holds no conversion.
-/

namespace Ls2kMorse
namespace Spi

open Lib.Trace

/-- One complete use of a device on the controller. -/
inductive SharedOperation where
  | readRegister (reg : UInt8)
  | writeRegister (reg : UInt8) (value : UInt16)
  | sdiSendBuffer (data : List UInt8)
  | getADCValue (inputs : UInt8)
deriving Repr, DecidableEq

/-- The accesses of a sequence of operations; the state is that of the converter
driver. -/
def sharedAccesses : Ads1118 → List SharedOperation → List Access
  | _, [] => []
  | a, .readRegister reg :: ops => readRegister reg ++ sharedAccesses a ops
  | a, .writeRegister reg value :: ops => writeRegister reg value ++ sharedAccesses a ops
  | a, .sdiSendBuffer data :: ops => sdiSendBuffer data ++ sharedAccesses a ops
  | a, .getADCValue inputs :: ops =>
      (getADCValue inputs a).1 ++ sharedAccesses (getADCValue inputs a).2 ops

/-- While a byte is exchanged with the converter, neither line of the codec is
low; while one is exchanged with the codec, no line but that of its interface is
low. -/
def Isolated (s : Controller) (i : Access) : Prop :=
  (i.bus = some .ads → xCs ∉ lowLines s.softcs ∧ xDcs ∉ lowLines s.softcs) ∧
    (i.bus = some .sci → lowLines s.softcs ⊆ {xCs}) ∧
    (i.bus = some .sdi → lowLines s.softcs ⊆ {xDcs})

/-- Whether an operation is a conversion. -/
def SharedOperation.IsConversion : SharedOperation → Prop
  | .getADCValue _ => True
  | _ => False

/-! ## The codec alone -/

/-- With all lines high at first, a safe access of the codec is isolated. -/
theorem CodecSafe.isolated {s : Controller} {i : Access} (h : CodecSafe ∅ s i) :
    Isolated s i := by
  refine ⟨?_, ?_, ?_⟩
  · intro hbus
    rcases h.2 .ads hbus with ⟨line, hline, -⟩
    exact absurd hline (Option.some_ne_none line).symm
  · intro hbus
    rcases h.2 .sci hbus with ⟨line, hline, hselected⟩
    obtain rfl : xCs = line := Option.some.inj hline
    exact hselected.2
  · intro hbus
    rcases h.2 .sdi hbus with ⟨line, hline, hselected⟩
    obtain rfl : xDcs = line := Option.some.inj hline
    exact hselected.2

/-! ## Conversions -/

/-- The store of `0xbf` selects the codec. -/
theorem lowLines_converter : lowLines 0xbf = {xCs} := by
  decide

/-- A conversion sends its first byte while `xCs` is low. -/
theorem getADCValue_selects_codec (inputs : UInt8) (a : Ads1118) (s : Controller)
    (rest : List Access) : ¬ Along exec Isolated s ((getADCValue inputs a).1 ++ rest) := by
  rcases getADCValue_accesses inputs a with ⟨data, tail, haccesses⟩
  rw [haccesses]
  intro h
  have hbyte : Isolated (exec s (.storeCsn 0xbf)) (.tx .ads data) := h.2.1
  apply (hbyte.1 rfl).1
  change xCs ∈ lowLines 0xbf
  rw [lowLines_converter]
  exact Finset.mem_singleton_self xCs

/-! ## Sequences of operations -/

/-- Started with all select lines high, a sequence of complete register accesses,
data transfers and conversions keeps the devices isolated at every byte if and
only if it holds no conversion. -/
theorem isolated_operations_iff (a : Ads1118) (s : Controller) (hs : lowLines s.softcs = ∅)
    (ops : List SharedOperation) :
    Along exec Isolated s (sharedAccesses a ops) ↔ ∀ op ∈ ops, ¬ op.IsConversion := by
  have hcs : xCs ∉ (∅ : Finset (Fin 4)) := Finset.notMem_empty _
  have hdcs : xDcs ∉ (∅ : Finset (Fin 4)) := Finset.notMem_empty _
  have hisolated : ∀ s i, CodecSafe ∅ s i → Isolated s i := fun s i h => h.isolated
  have hidle : OnLines (Idle ∅) s := by
    unfold OnLines Idle
    rw [hs]
  clear hs
  induction ops generalizing a s with
  | nil => simp [sharedAccesses]
  | cons op ops ih =>
      rw [List.forall_mem_cons]
      cases op with
      | readRegister reg =>
          have hcodec : ¬ (SharedOperation.readRegister reg).IsConversion := not_false
          rw [and_iff_right hcodec]
          apply ((readRegister_triple hcs hdcs reg).mono hisolated).along_append_iff hidle
          intro s' hs'
          exact ih a s' hs'
      | writeRegister reg value =>
          have hcodec : ¬ (SharedOperation.writeRegister reg value).IsConversion := not_false
          rw [and_iff_right hcodec]
          apply ((writeRegister_triple hcs hdcs reg value).mono hisolated).along_append_iff hidle
          intro s' hs'
          exact ih a s' hs'
      | sdiSendBuffer data =>
          have hcodec : ¬ (SharedOperation.sdiSendBuffer data).IsConversion := not_false
          rw [and_iff_right hcodec]
          apply ((sdiSendBuffer_triple hcs hdcs false data).mono hisolated).along_append_iff hidle
          intro s' hs'
          exact ih a s' hs'
      | getADCValue inputs =>
          apply iff_of_false (getADCValue_selects_codec inputs a s _)
          intro h
          exact h.1 trivial

/-- A register write, a transfer and a register read, after `spi_init`. -/
theorem isolated_operations_codec :
    Along exec Isolated ⟨0xff, 0⟩ (sharedAccesses ads1118Begin
        [.writeRegister 0x0b 0x2020, .sdiSendBuffer [0x55, 0xaa], .readRegister 0x09]) ↔
      ∀ op ∈ [SharedOperation.writeRegister 0x0b 0x2020, .sdiSendBuffer [0x55, 0xaa],
        .readRegister 0x09], ¬ op.IsConversion :=
  isolated_operations_iff ads1118Begin ⟨0xff, 0⟩ (by decide) _

/-- A single conversion after `spi_init`. -/
theorem isolated_operations_conversion :
    lowLines (exec ⟨0xff, 0⟩ (.storeCsn 0xbf)).softcs = {xCs} ∧
      ¬ Along exec Isolated ⟨0xff, 0⟩ (sharedAccesses ads1118Begin [.getADCValue 4]) :=
  ⟨lowLines_converter, getADCValue_selects_codec 4 ads1118Begin ⟨0xff, 0⟩ _⟩

end Spi
end Ls2kMorse
