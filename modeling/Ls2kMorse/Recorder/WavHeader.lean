import Mathlib.Data.Vector.Basic
import Mathlib.Tactic.Common

/-!
# The WAV header of the recorder

`wrtie_header` patches five 32-bit fields of a static 60-byte array, each byte
by byte through a union, and writes the array to the file.  The machine is
little-endian.

Main results:

- Theorem `getElem_patchField`: patching a field changes its four bytes only.
- Theorem `le32_patchField`: reading a patched field gives the value back.
- Theorems `le32_wrtieHeader_riff` and `le32_wrtieHeader_data`: the two sizes
  that the header declares.
-/

namespace Ls2kMorse
namespace Recorder

/-! ## The header as the source computes it -/

/-- The words of a batch. -/
def VS1003_ADPCM_BATCH_SIZE : Nat := 256

/-- The static array with its initial bytes. -/
def header : Vector UInt8 60 :=
  #v[0x52, 0x49, 0x46, 0x46, 0x1c, 0x10, 0x00, 0x00,
    0x57, 0x41, 0x56, 0x45, 0x66, 0x6d, 0x74, 0x20,
    0x14, 0x00, 0x00, 0x00, 0x11, 0x00, 0x01, 0x00,
    0x40, 0x1f, 0x00, 0x00, 0x75, 0x12, 0x00, 0x00,
    0x00, 0x01, 0x04, 0x00, 0x02, 0x00, 0xf9, 0x01,
    0x66, 0x61, 0x63, 0x74, 0x04, 0x00, 0x00, 0x00,
    0x5c, 0x1f, 0x00, 0x00, 0x64, 0x61, 0x74, 0x61,
    0xe8, 0x0f, 0x00, 0x00]

/-- Byte `i` of `bit_converter` after `d` has been stored. -/
def converterByte (d : UInt32) (i : Nat) : UInt8 :=
  UInt8.ofNat (d.toNat / 256 ^ i)

/-- The loop that copies the four bytes of `bit_converter` to `header[off + i]`. -/
def patchField (header : Vector UInt8 60) (off : Nat) (d : UInt32)
    (hoff : off + 4 ≤ 60 := by decide) : Vector UInt8 60 :=
  (((header.set off (converterByte d 0)).set (off + 1) (converterByte d 1)).set
    (off + 2) (converterByte d 2)).set (off + 3) (converterByte d 3)

/-- The array after `wrtie_header(f, n, fs)`, and with it the bytes written. -/
def wrtieHeader (header : Vector UInt8 60) (n fs : UInt32) : Vector UInt8 60 :=
  let F := n * UInt32.ofNat VS1003_ADPCM_BATCH_SIZE + 52
  let R := fs
  let B := fs * UInt32.ofNat VS1003_ADPCM_BATCH_SIZE / 505
  let S := n * 505
  let D := n * UInt32.ofNat VS1003_ADPCM_BATCH_SIZE
  let header := patchField header 4 F
  let header := patchField header 24 R
  let header := patchField header 28 B
  let header := patchField header 48 S
  patchField header 56 D

/-! ## Reading fields -/

/-- The little-endian 32-bit field at an offset. -/
def le32 (header : Vector UInt8 60) (off : Nat) (hoff : off + 4 ≤ 60 := by decide) : Nat :=
  header[off].toNat + 256 * header[off + 1].toNat + 65536 * header[off + 2].toNat +
    16777216 * header[off + 3].toNat

/-- Patching a field changes its four bytes only. -/
theorem getElem_patchField (header : Vector UInt8 60) {off : Nat} (d : UInt32)
    (hoff : off + 4 ≤ 60) {i : Nat} (hi : i < 60) :
    (patchField header off d hoff)[i] =
      if off ≤ i ∧ i < off + 4 then converterByte d (i - off) else header[i] := by
  unfold patchField
  simp only [Vector.getElem_set]
  by_cases h3 : off + 3 = i
  · rw [if_pos h3, if_pos (by omega), ← h3, Nat.add_sub_cancel_left]
  by_cases h2 : off + 2 = i
  · rw [if_neg h3, if_pos h2, if_pos (by omega), ← h2, Nat.add_sub_cancel_left]
  by_cases h1 : off + 1 = i
  · rw [if_neg h3, if_neg h2, if_pos h1, if_pos (by omega), ← h1, Nat.add_sub_cancel_left]
  by_cases h0 : off = i
  · rw [if_neg h3, if_neg h2, if_neg h1, if_pos h0, if_pos (by omega), ← h0, Nat.sub_self]
  · rw [if_neg h3, if_neg h2, if_neg h1, if_neg h0, if_neg (by omega)]

/-- The four bytes of a value determine it. -/
theorem converterByte_sum (d : UInt32) :
    (converterByte d 0).toNat + 256 * (converterByte d 1).toNat +
      65536 * (converterByte d 2).toNat + 16777216 * (converterByte d 3).toNat = d.toNat := by
  have hd := d.toNat_lt
  simp only [converterByte, UInt8.toNat_ofNat']
  omega

/-- Reading a patched field gives the value back. -/
theorem le32_patchField (header : Vector UInt8 60) {off : Nat} (d : UInt32)
    (hoff : off + 4 ≤ 60) : le32 (patchField header off d hoff) off hoff = d.toNat := by
  unfold le32
  simp only [getElem_patchField]
  rw [if_pos (by omega), if_pos (by omega), if_pos (by omega), if_pos (by omega), Nat.sub_self,
    Nat.add_sub_cancel_left, Nat.add_sub_cancel_left, Nat.add_sub_cancel_left]
  exact converterByte_sum d

/-- Patching a field leaves the fields beside it as they were. -/
theorem le32_patchField_of_disjoint (header : Vector UInt8 60) {off off' : Nat} (d : UInt32)
    (hoff : off + 4 ≤ 60) (hoff' : off' + 4 ≤ 60) (hdis : off + 4 ≤ off' ∨ off' + 4 ≤ off) :
    le32 (patchField header off d hoff) off' hoff' = le32 header off' hoff' := by
  unfold le32
  simp only [getElem_patchField]
  rw [if_neg (by omega), if_neg (by omega), if_neg (by omega), if_neg (by omega)]

/-- The RIFF size that the header declares for `n` blocks. -/
theorem le32_wrtieHeader_riff (header : Vector UInt8 60) {n : Nat} (fs : UInt32)
    (hn : 256 * n + 52 < 2 ^ 32) :
    le32 (wrtieHeader header (UInt32.ofNat n) fs) 4 = 256 * n + 52 := by
  unfold wrtieHeader
  simp only [VS1003_ADPCM_BATCH_SIZE]
  -- the four fields patched after the RIFF size lie behind it
  simp (disch := decide) only [le32_patchField_of_disjoint, le32_patchField]
  have hextra : (52 : UInt32).toNat = 52 := rfl
  rw [UInt32.toNat_add, UInt32.toNat_mul, UInt32.toNat_ofNat', UInt32.toNat_ofNat', hextra]
  omega

/-- The data size that the header declares for `n` blocks. -/
theorem le32_wrtieHeader_data (header : Vector UInt8 60) {n : Nat} (fs : UInt32)
    (hn : 256 * n + 52 < 2 ^ 32) :
    le32 (wrtieHeader header (UInt32.ofNat n) fs) 56 = 256 * n := by
  unfold wrtieHeader
  simp only [VS1003_ADPCM_BATCH_SIZE]
  rw [le32_patchField, UInt32.toNat_mul, UInt32.toNat_ofNat', UInt32.toNat_ofNat']
  omega

end Recorder
end Ls2kMorse
