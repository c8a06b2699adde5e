import Ls2kMorse.Lib.Bits
import Ls2kMorse.Lib.Trace
import Mathlib.Data.Finset.Basic
import Mathlib.Data.Fintype.Basic

/-!
# The SPI controller and its select lines

Every access to the controller is a load or a store of one register, and a
thread may be deleted between any two of them.  The register `SOFTCS` holds an
enable bit and a level bit for each of the four select lines; `spi_set_cs` edits
the bits of one line by a load and a store, `spi_set_csn` stores the whole byte.

Main results:

- Theorem `lowLines_withCs`: the edit of `spi_set_cs` changes one line.
- Theorem `spiSetCs_triple`: the rule of pre- and postconditions for
  `spi_set_cs` on the set of low lines.
-/

namespace Ls2kMorse
namespace Spi

open Lib Lib.Trace

/-! ## Register accesses -/

/-- The register `SOFTCS` and the local variable `val` of `spi_set_cs`. -/
structure Controller where
  softcs : BitVec 8
  val : BitVec 8
deriving Repr, DecidableEq

/-- The device and interface that a byte is meant for: the control and the data
interface of the codec, and the converter. -/
inductive Bus where
  | sci
  | sdi
  | ads
deriving Repr, DecidableEq

/-- One access to the controller, or a wait that does not touch it. -/
inductive Access where
  | load
  | storeCs (cs : Fin 4) (newStatus : Bool)
  | storeCsn (val : BitVec 8)
  | tx (bus : Bus) (data : UInt8)
  | rx (bus : Bus)
  | awaitDataRequest
  | delay
deriving Repr, DecidableEq

/-- The value that `spi_set_cs` stores: the enable bit set, the level bit set or
cleared. -/
def withCs (val : BitVec 8) (cs : Fin 4) (newStatus : Bool) : BitVec 8 :=
  let val := val ||| 0x01#8 <<< cs.val
  if newStatus then val ||| 0x10#8 <<< cs.val
  else val &&& ~~~(0x10#8 <<< cs.val)

/-- The effect of one access. -/
def exec (s : Controller) : Access → Controller
  | .load => { s with val := s.softcs }
  | .storeCs cs newStatus => { s with softcs := withCs s.val cs newStatus }
  | .storeCsn val => { s with softcs := val }
  | .tx _ _ => s
  | .rx _ => s
  | .awaitDataRequest => s
  | .delay => s

/-! ## Functions of `drv_spi.c` -/

/-- `spi_set_cs` on one of the four lines of the controller. -/
def spiSetCs (cs : Fin 4) (newStatus : Bool) : List Access :=
  [.load, .storeCs cs newStatus]

/-- `spi_set_csn`: stores the whole register. -/
def spiSetCsn (val : BitVec 8) : List Access :=
  [.storeCsn val]

/-- `spi_write_for_response`: store the byte, then wait for the echo and read it. -/
def spiWriteForResponse (bus : Bus) (data : UInt8) : List Access :=
  [.tx bus data, .rx bus]

/-! ## Low lines -/

/-- The select lines whose level bit is zero. -/
def lowLines (softcs : BitVec 8) : Finset (Fin 4) :=
  Finset.univ.filter fun line => softcs.getLsbD (line.val + 4) = false

/-- A line is low when its bit is clear. -/
theorem mem_lowLines {softcs : BitVec 8} {line : Fin 4} :
    line ∈ lowLines softcs ↔ softcs.getLsbD (line.val + 4) = false := by
  simp [lowLines]

/-- The set of low lines after one line has been driven. -/
def driveLine (low : Finset (Fin 4)) (cs : Fin 4) (newStatus : Bool) : Finset (Fin 4) :=
  if newStatus then low.erase cs else insert cs low

/-- The mask of a line addresses its level bit. -/
theorem mask_csn (cs : Fin 4) : 0x10#8 <<< cs.val = 1#8 <<< (cs.val + 4) := by
  revert cs
  decide

/-- Editing the bits of a line drives this line and no other. -/
theorem lowLines_withCs (val : BitVec 8) (cs : Fin 4) (newStatus : Bool) :
    lowLines (withCs val cs newStatus) = driveLine (lowLines val) cs newStatus := by
  have hcsen : cs.val < 8 := by omega
  have hcsn : cs.val + 4 < 8 := by omega
  ext line
  have hline : ¬ line.val + 4 = cs.val := by omega
  cases newStatus with
  | false =>
      simp only [withCs, driveLine, Bool.false_eq_true, if_false, Finset.mem_insert, mem_lowLines]
      rw [mask_csn, Bits.getLsbD_and_not_mask _ hcsn, Bits.getLsbD_or_mask _ hcsen]
      by_cases h : line = cs <;> simp [hline, Fin.val_inj, h]
  | true =>
      simp only [withCs, driveLine, if_true, Finset.mem_erase, mem_lowLines]
      rw [mask_csn, Bits.getLsbD_or_mask _ hcsn, Bits.getLsbD_or_mask _ hcsen]
      by_cases h : line = cs <;> simp [hline, Fin.val_inj, h]

/-- With all bits set no line is low. -/
theorem lowLines_all_high : lowLines 0xff = ∅ := by
  decide

/-- A condition on the set of low lines, as a condition on the controller. -/
def OnLines (p : Finset (Fin 4) → Prop) (s : Controller) : Prop :=
  p (lowLines s.softcs)

section Rules

variable {ok : Controller → Access → Prop} {p q : Finset (Fin 4) → Prop}

/-- The load of `spi_set_cs` leaves the lines, its store drives one of them. -/
theorem spiSetCs_triple {cs : Fin 4} {newStatus : Bool}
    (hload : ∀ s, OnLines p s → ok s .load)
    (hstore : ∀ s, p (lowLines s.val) → p (lowLines s.softcs) → ok s (.storeCs cs newStatus))
    (hdrive : ∀ low, p low → q (driveLine low cs newStatus)) :
    Triple exec ok (OnLines p) (spiSetCs cs newStatus) (OnLines q) := by
  intro s hs
  refine ⟨⟨hload s hs, hstore _ hs hs, trivial⟩, ?_⟩
  unfold OnLines
  change q (lowLines (withCs s.softcs cs newStatus))
  rw [lowLines_withCs]
  exact hdrive _ hs

/-- `spi_set_csn` replaces all lines. -/
theorem spiSetCsn_triple {val : BitVec 8} (hstore : ∀ s, OnLines p s → ok s (.storeCsn val))
    (hq : q (lowLines val)) :
    Triple exec ok (OnLines p) (spiSetCsn val) (OnLines q) :=
  Triple.single hstore fun _ _ => hq

/-- Accesses that leave `SOFTCS` alone keep every condition on the lines. -/
theorem keeps_lines {i : Access} (hexec : ∀ s, (exec s i).softcs = s.softcs)
    (hok : ∀ s, OnLines p s → ok s i) : Triple exec ok (OnLines p) [i] (OnLines p) := by
  apply Triple.single hok
  intro s hs
  unfold OnLines at hs ⊢
  rwa [hexec]

end Rules

end Spi
end Ls2kMorse
