import Ls2kMorse.Lib.Window

/-!
# RIFF containers

A RIFF container is a tag, a size, a form and a sequence of chunks; a chunk is a
tag, a size and a body.  Sizes have four bytes, the lowest first.  The reader takes
a container that is cut off in its last chunk, as a header in front of a stream is.

Main results:

- Theorems `leNat_leBytes` and `leBytes_leNat`: numbers as bytes and back.
- Theorem `parseRiff_bytes`: a container is read back from its bytes.
- Theorem `parseRiff_tiles`: the chunks that are read leave no byte out.
-/

namespace Ls2kMorse
namespace Lib

/-! ## Numbers -/

/-- The value of a run of bytes, the lowest first. -/
def leNat : List UInt8 → Nat
  | [] => 0
  | b :: bs => b.toNat + 256 * leNat bs

/-- The `k` lowest bytes of a number, the lowest first. -/
def leBytes : Nat → Nat → List UInt8
  | 0, _ => []
  | k + 1, n => UInt8.ofNat n :: leBytes k (n / 256)

@[simp]
theorem length_leBytes (k n : Nat) : (leBytes k n).length = k := by
  induction k generalizing n with
  | zero => rfl
  | succ k ih => rw [leBytes, List.length_cons, ih]

/-- A number that fits goes into its bytes and back. -/
theorem leNat_leBytes {k n : Nat} (h : n < 256 ^ k) : leNat (leBytes k n) = n := by
  induction k generalizing n with
  | zero =>
      have hzero : n = 0 := by simpa using h
      rw [hzero]
      rfl
  | succ k ih =>
      have hdiv : n / 256 < 256 ^ k := by
        rw [Nat.pow_succ] at h
        exact Nat.div_lt_of_lt_mul (by omega)
      rw [leBytes, leNat, ih hdiv, UInt8.toNat_ofNat']
      omega

/-- Bytes go into their number and back. -/
theorem leBytes_leNat (bs : List UInt8) : leBytes bs.length (leNat bs) = bs := by
  induction bs with
  | nil => rfl
  | cons b bs ih =>
      have hb := b.toNat_lt
      have hlow : UInt8.ofNat (b.toNat + 256 * leNat bs) = b := by
        apply UInt8.toNat.inj
        rw [UInt8.toNat_ofNat']
        omega
      have hrest : (b.toNat + 256 * leNat bs) / 256 = leNat bs := by omega
      rw [List.length_cons, leNat, leBytes, hlow, hrest, ih]

/-! ## Chunks -/

/-- A chunk with the size that it declares; the body may be shorter when the
container is cut off. -/
structure Chunk where
  id : List UInt8
  size : Nat
  body : List UInt8
deriving Repr, DecidableEq

/-- The bytes of a chunk. -/
def Chunk.bytes (c : Chunk) : List UInt8 :=
  c.id ++ leBytes 4 c.size ++ c.body

/-- There are no more chunks than bytes. -/
theorem length_le_flatMap_bytes (cs : List Chunk) :
    cs.length ≤ (cs.flatMap Chunk.bytes).length := by
  induction cs with
  | nil => exact Nat.le_refl 0
  | cons c cs ih =>
      have hsize : 4 ≤ c.bytes.length := by
        simp [Chunk.bytes]
        omega
      rw [List.flatMap_cons, List.length_append, List.length_cons]
      omega

/-- Chunks that can follow each other in a container: only the last may be cut
off. -/
def ChunksFit : List Chunk → Prop
  | [] => True
  | c :: cs =>
      c.id.length = 4 ∧ c.size < 256 ^ 4 ∧ c.body.length ≤ c.size ∧
        (cs ≠ [] → c.body.length = c.size) ∧ ChunksFit cs

/-- Reads chunks up to the end of the bytes; `fuel` bounds their number. -/
def parseChunks : Nat → List UInt8 → Option (List Chunk)
  | _, [] => some []
  | 0, _ :: _ => none
  | fuel + 1, b :: bs =>
      let bytes := b :: bs
      if 8 ≤ bytes.length then do
        let size := leNat (window bytes 4 4)
        let cs ← parseChunks fuel (bytes.drop (8 + size))
        some (⟨bytes.take 4, size, (bytes.drop 8).take size⟩ :: cs)
      else none

theorem parseChunks_of_ne_nil {bytes : List UInt8} (h : 8 ≤ bytes.length) (fuel : Nat) :
    parseChunks (fuel + 1) bytes =
      (parseChunks fuel (bytes.drop (8 + leNat (window bytes 4 4)))).map fun cs =>
        ⟨bytes.take 4, leNat (window bytes 4 4),
          (bytes.drop 8).take (leNat (window bytes 4 4))⟩ :: cs := by
  cases bytes with
  | nil => simp at h
  | cons b bs =>
      rw [parseChunks]
      simp only [if_pos h]
      cases parseChunks fuel ((b :: bs).drop (8 + leNat (window (b :: bs) 4 4))) <;> rfl

/-- A chunk that is not cut off is read from the front of the bytes. -/
theorem parseChunks_cons {c : Chunk} {rest : List UInt8} (hid : c.id.length = 4)
    (hsize : c.size < 256 ^ 4) (hbody : c.body.length ≤ c.size)
    (hrest : rest ≠ [] → c.body.length = c.size) (fuel : Nat) :
    parseChunks (fuel + 1) (c.bytes ++ rest) =
      (parseChunks fuel rest).map fun cs => c :: cs := by
  have hlen : 8 ≤ (c.bytes ++ rest).length := by
    simp [Chunk.bytes, hid]
    omega
  have htag : (c.bytes ++ rest).take 4 = c.id := by
    simp [Chunk.bytes, ← hid]
  have hdrop4 : (c.bytes ++ rest).drop 4 = leBytes 4 c.size ++ (c.body ++ rest) := by
    simp [Chunk.bytes, ← hid]
  have hwindow : leNat (window (c.bytes ++ rest) 4 4) = c.size := by
    unfold window
    rw [hdrop4, List.take_append_of_le_length (by simp), List.take_of_length_le (by simp)]
    exact leNat_leBytes hsize
  have hdrop8 : (c.bytes ++ rest).drop 8 = c.body ++ rest := by
    rw [← List.drop_drop (i := 4) (j := 4), hdrop4]
    simp
  have hboth : (c.body ++ rest).take c.size = c.body ∧ (c.body ++ rest).drop c.size = rest := by
    by_cases hnil : rest = []
    · rw [hnil, List.append_nil]
      exact ⟨List.take_of_length_le hbody, List.drop_eq_nil_of_le hbody⟩
    · rw [← hrest hnil]
      exact ⟨List.take_left, List.drop_left⟩
  rw [parseChunks_of_ne_nil hlen, hwindow, htag, hdrop8, ← List.drop_drop, hdrop8, hboth.1,
    hboth.2]

/-- Chunks are read back from their bytes. -/
theorem parseChunks_bytes {cs : List Chunk} (h : ChunksFit cs) {fuel : Nat}
    (hfuel : cs.length ≤ fuel) : parseChunks fuel (cs.flatMap Chunk.bytes) = some cs := by
  induction cs generalizing fuel with
  | nil => cases fuel <;> rfl
  | cons c cs ih =>
      rcases h with ⟨hid, hsize, hbody, hnext, hfit⟩
      obtain ⟨fuel, rfl⟩ : ∃ f, fuel = f + 1 := ⟨fuel - 1, by simp at hfuel; omega⟩
      have hrest : cs.flatMap Chunk.bytes ≠ [] → c.body.length = c.size := by
        intro hne
        apply hnext
        rintro rfl
        exact hne rfl
      rw [List.flatMap_cons, parseChunks_cons hid hsize hbody hrest,
        ih hfit (Nat.le_of_succ_le_succ hfuel)]
      rfl

/-- The chunks that are read leave no byte out. -/
theorem parseChunks_tiles {fuel : Nat} {bytes : List UInt8} {cs : List Chunk}
    (h : parseChunks fuel bytes = some cs) : cs.flatMap Chunk.bytes = bytes := by
  induction fuel generalizing bytes cs with
  | zero =>
      cases bytes with
      | nil =>
          rw [← Option.some.inj h]
          rfl
      | cons b bs => exact absurd h (Option.some_ne_none cs).symm
  | succ fuel ih =>
      cases bytes with
      | nil =>
          rw [← Option.some.inj h]
          rfl
      | cons b bs =>
          by_cases hlen : 8 ≤ (b :: bs).length
          · rw [parseChunks_of_ne_nil hlen, Option.map_eq_some_iff] at h
            rcases h with ⟨cs, hcs, rfl⟩
            have hsize := leBytes_leNat (window (b :: bs) 4 4)
            rw [length_window (by omega)] at hsize
            rw [List.flatMap_cons, ih hcs, Chunk.bytes, hsize, window, ← List.drop_drop,
              List.append_assoc, List.take_append_drop, List.append_assoc]
            have hdrop : (b :: bs).drop 8 = ((b :: bs).drop 4).drop 4 := by
              rw [List.drop_drop]
            rw [hdrop, List.take_append_drop, List.take_append_drop]
          · rw [parseChunks] at h
            simp only [if_neg hlen] at h
            exact absurd h (Option.some_ne_none cs).symm

/-! ## Containers -/

/-- The bytes of a tag. -/
def tag (s : String) : List UInt8 :=
  s.toList.map fun ch => UInt8.ofNat ch.toNat

/-- A container: the declared size, the form and the chunks. -/
structure Riff where
  size : Nat
  form : List UInt8
  chunks : List Chunk
deriving Repr, DecidableEq

/-- The bytes of a container. -/
def Riff.bytes (r : Riff) : List UInt8 :=
  tag "RIFF" ++ leBytes 4 r.size ++ r.form ++ r.chunks.flatMap Chunk.bytes

/-- Reads a container up to the end of the bytes. -/
def parseRiff (bytes : List UInt8) : Option Riff :=
  if 12 ≤ bytes.length ∧ bytes.take 4 = tag "RIFF" then do
    let chunks ← parseChunks bytes.length (bytes.drop 12)
    some ⟨leNat (window bytes 4 4), window bytes 8 4, chunks⟩
  else none

/-- A container is read back from its bytes. -/
theorem parseRiff_bytes {r : Riff} (hsize : r.size < 256 ^ 4) (hform : r.form.length = 4)
    (hfit : ChunksFit r.chunks) : parseRiff r.bytes = some r := by
  have htag : (tag "RIFF").length = 4 := by decide
  have hlen : 12 ≤ r.bytes.length := by
    simp [Riff.bytes, htag, hform]
    omega
  have hfirst : r.bytes.take 4 = tag "RIFF" := by
    simp [Riff.bytes, ← htag]
  have hdrop4 : r.bytes.drop 4 = leBytes 4 r.size ++ (r.form ++ r.chunks.flatMap Chunk.bytes) := by
    simp [Riff.bytes, ← htag]
  have hdrop8 : r.bytes.drop 8 = r.form ++ r.chunks.flatMap Chunk.bytes := by
    rw [← List.drop_drop (i := 4) (j := 4), hdrop4]
    simp
  have hdrop12 : r.bytes.drop 12 = r.chunks.flatMap Chunk.bytes := by
    rw [← List.drop_drop (i := 4) (j := 8), hdrop8, ← hform, List.drop_left]
  have hread : leNat (window r.bytes 4 4) = r.size := by
    unfold window
    rw [hdrop4, List.take_append_of_le_length (by simp), List.take_of_length_le (by simp)]
    exact leNat_leBytes hsize
  have hwindow : window r.bytes 8 4 = r.form := by
    unfold window
    rw [hdrop8, ← hform, List.take_left]
  have hfuel : r.chunks.length ≤ r.bytes.length := by
    have hchunks := length_le_flatMap_bytes r.chunks
    rw [Riff.bytes, List.length_append]
    omega
  unfold parseRiff
  rw [if_pos ⟨hlen, hfirst⟩, hdrop12, parseChunks_bytes hfit hfuel, hread, hwindow]
  rfl

/-- The fields and chunks that are read leave no byte out. -/
theorem parseRiff_tiles {bytes : List UInt8} {r : Riff} (h : parseRiff bytes = some r) :
    r.bytes = bytes := by
  unfold parseRiff at h
  split_ifs at h with hhead
  rcases hhead with ⟨hlen, htag⟩
  simp only [Option.bind_eq_bind, Option.bind_eq_some_iff, Option.some.injEq] at h
  rcases h with ⟨chunks, hchunks, rfl⟩
  have hsize := leBytes_leNat (window bytes 4 4)
  rw [length_window (by omega)] at hsize
  have hhead : window bytes 0 4 ++ window bytes 4 4 ++ window bytes 8 4 = bytes.take 12 := by
    rw [← window_add, ← window_add]
    rfl
  unfold Riff.bytes
  rw [parseChunks_tiles hchunks, hsize, ← htag]
  exact (congrArg (fun front => front ++ bytes.drop 12) hhead).trans
    (List.take_append_drop 12 bytes)

end Lib
end Ls2kMorse
