import Mathlib.Data.List.Basic
import Mathlib.Tactic.Common

/-!
# Framing of the audio file

`morse_process_once_thread` cuts the bytes of the file into overlapping frames:
row `i` of `arr` takes `wlen` bytes from place `inc * i` on, and the last row is
meant to take what is left.  The row has `wlen` cells, however, and the loop of
the last row runs to `k <= j_len`.  The model lists the accesses of the loops, so
that one which leaves its array is seen rather than carried out.

Main results:

- Theorem `reads_every_byte`: every byte of the file is read into a frame.
- Theorem `frontRow_inBounds`: all rows but the last stay inside the arrays.
- Theorem `outOfBounds_iff`: which accesses of the last row leave the arrays.
- Theorem `framing_not_exact`: for every file at least one does.
-/

namespace Ls2kMorse
namespace Framing

/-! ## The loops as the source runs them -/

/-- An access to `fbuffer`, `arr` or `En`; stores carry their value. -/
inductive Access where
  | readFbuffer (x : Nat)
  | storeArr (i j : Nat) (v : Int)
  | storeEn (i : Nat) (v : Int)
deriving Repr, DecidableEq

/-- The samples of a frame. -/
def wlen : Nat := 200

/-- The distance between the starts of two frames. -/
def inc : Nat := 100

/-- The number of frames. -/
def fn (flen : Nat) : Nat :=
  (flen - wlen) / inc + 1

/-- The number of bytes behind the start of the last frame. -/
def jLen (flen : Nat) : Nat :=
  flen - (fn flen - 1) * inc

/-- The rows of `arr` and the energies are cleared. -/
def clearRows (flen : Nat) : List Access :=
  (List.range (fn flen)).flatMap fun i =>
    (List.range wlen).map (fun j => .storeArr i j 0) ++ [.storeEn i 0]

/-- The body of both copy loops: bytes of at most 6 count as silence. -/
def copyByte (fbuffer : Nat → UInt8) (i j k : Nat) : List Access :=
  let v := fbuffer (inc * i + k)
  .readFbuffer (inc * i + k) :: .storeArr i j v.toNat ::
    if v.toNat ≤ 6 then [.storeArr i j 0] else []

/-- A copy loop from `j` and `k` on.  Its condition is a comma expression, of
which only the last test counts: the loop runs while `k < stop`. -/
def copyRow (fbuffer : Nat → UInt8) (i stop : Nat) (j k : Nat) : List Access :=
  if k < stop then copyByte fbuffer i j k ++ copyRow fbuffer i stop (j + 1) (k + 1) else []
termination_by stop - k

/-- The loop of a row before the last: `j<wlen,k<wlen`. -/
def frontRow (fbuffer : Nat → UInt8) (i : Nat) : List Access :=
  copyRow fbuffer i wlen 0 0

/-- The loop of the last row: `j<j_len,k<=j_len`. -/
def lastRow (fbuffer : Nat → UInt8) (flen i : Nat) : List Access :=
  copyRow fbuffer i (jLen flen + 1) 0 0

/-- All accesses of the framing loops on a file of `flen` bytes; `fbuffer` is the
memory from the start of the buffer on. -/
def framing (fbuffer : Nat → UInt8) (flen : Nat) : List Access :=
  clearRows flen ++ (List.range (fn flen)).flatMap fun i =>
    if i < fn flen - 1 then frontRow fbuffer i else lastRow fbuffer flen i

/-! ## Bounds -/

/-- The access stays inside the array it goes to. -/
def Access.InBounds (flen : Nat) : Access → Prop
  | .readFbuffer x => x < flen
  | .storeArr i j _ => i < fn flen ∧ j < wlen
  | .storeEn i _ => i < fn flen

/-- All accesses stay inside their arrays, and every byte of the file is read. -/
def Exact (flen : Nat) (accesses : List Access) : Prop :=
  (∀ a ∈ accesses, a.InBounds flen) ∧ ∀ x, x < flen → Access.readFbuffer x ∈ accesses

/-- Copying a byte reads one and stores one. -/
theorem mem_copyByte {fbuffer : Nat → UInt8} {i j k : Nat} {a : Access}
    (h : a ∈ copyByte fbuffer i j k) :
    a = .readFbuffer (inc * i + k) ∨ ∃ v, a = .storeArr i j v := by
  unfold copyByte at h
  rcases List.mem_cons.mp h with hread | h
  · exact Or.inl hread
  rcases List.mem_cons.mp h with hstore | h
  · exact Or.inr ⟨_, hstore⟩
  split_ifs at h
  · exact Or.inr ⟨0, List.mem_singleton.mp h⟩
  · exact absurd h List.not_mem_nil

/-- A loop started at zero runs its body for every `k` below its bound, with `j`
equal to `k`. -/
theorem mem_copyRow (fbuffer : Nat → UInt8) (i stop j k : Nat) (a : Access) :
    a ∈ copyRow fbuffer i stop (j + k) k ↔
      ∃ k', k ≤ k' ∧ k' < stop ∧ a ∈ copyByte fbuffer i (j + k') k' := by
  -- induction on the number of iterations left
  induction hn : stop - k generalizing k with
  | zero =>
      have hstop : ¬ k < stop := by omega
      rw [copyRow, if_neg hstop]
      constructor
      · intro h
        exact absurd h List.not_mem_nil
      · rintro ⟨k', hle, hlt, -⟩
        omega
  | succ n ih =>
      have hlt : k < stop := by omega
      rw [copyRow, if_pos hlt, List.mem_append, Nat.add_assoc, ih (k + 1) (by omega)]
      constructor
      · rintro (hhere | ⟨k', hle, hk', hmem⟩)
        · exact ⟨k, Nat.le_refl k, hlt, hhere⟩
        · exact ⟨k', Nat.le_of_succ_le hle, hk', hmem⟩
      · rintro ⟨k', hle, hk', hmem⟩
        rcases Nat.eq_or_lt_of_le hle with rfl | hmore
        · exact Or.inl hmem
        · exact Or.inr ⟨k', hmore, hk', hmem⟩

/-- The accesses of a full row. -/
theorem mem_frontRow {fbuffer : Nat → UInt8} {i : Nat} {a : Access} :
    a ∈ frontRow fbuffer i ↔ ∃ k, k < wlen ∧ a ∈ copyByte fbuffer i k k := by
  have h := mem_copyRow fbuffer i wlen 0 0 a
  simpa [frontRow] using h

/-- The accesses of the last row, whose index goes up to `jLen` itself. -/
theorem mem_lastRow {fbuffer : Nat → UInt8} {flen i : Nat} {a : Access} :
    a ∈ lastRow fbuffer flen i ↔ ∃ k, k ≤ jLen flen ∧ a ∈ copyByte fbuffer i k k := by
  have h := mem_copyRow fbuffer i (jLen flen + 1) 0 0 a
  simpa [lastRow, Nat.lt_succ_iff] using h

/-- The last frame starts inside the file, and behind its start there are 200 to
299 bytes. -/
theorem jLen_bounds {flen : Nat} (hflen : wlen ≤ flen) :
    inc * (fn flen - 1) + jLen flen = flen ∧ wlen ≤ jLen flen ∧ jLen flen < wlen + inc := by
  have hdiv := Nat.div_add_mod (flen - wlen) inc
  have hmod : (flen - wlen) % inc < inc := Nat.mod_lt _ (by decide)
  unfold jLen fn
  rw [Nat.add_sub_cancel, Nat.mul_comm ((flen - wlen) / inc)]
  omega

/-- A row before the last lies inside the file. -/
theorem frontRow_end {flen i : Nat} (hflen : wlen ≤ flen) (hi : i < fn flen - 1) :
    inc * i + wlen < flen := by
  rcases jLen_bounds hflen with ⟨hstart, hjLen, -⟩
  have hmul : inc * (i + 1) ≤ inc * (fn flen - 1) := Nat.mul_le_mul_left inc hi
  have hinc : 0 < inc := by decide
  rw [Nat.mul_add, Nat.mul_one] at hmul
  omega

/-- All rows but the last are filled inside the arrays. -/
theorem frontRow_inBounds (fbuffer : Nat → UInt8) {flen i : Nat} (hflen : wlen ≤ flen)
    (hi : i < fn flen - 1) {a : Access} (ha : a ∈ frontRow fbuffer i) : a.InBounds flen := by
  rcases mem_frontRow.mp ha with ⟨k, hk, hmem⟩
  rcases mem_copyByte hmem with rfl | ⟨v, rfl⟩
  · have hend := frontRow_end hflen hi
    show inc * i + k < flen
    omega
  · exact ⟨by omega, hk⟩

/-- Clearing the rows stays inside the array. -/
theorem clearRows_inBounds {flen : Nat} {a : Access} (ha : a ∈ clearRows flen) :
    a.InBounds flen := by
  rcases List.mem_flatMap.mp ha with ⟨i, hi, hmem⟩
  have hrow : i < fn flen := List.mem_range.mp hi
  rcases List.mem_append.mp hmem with hmem | hmem
  · rcases List.mem_map.mp hmem with ⟨j, hj, rfl⟩
    exact ⟨hrow, List.mem_range.mp hj⟩
  · rcases List.mem_singleton.mp hmem with rfl
    exact hrow

/-- The rows that the second loop nest fills. -/
theorem mem_framing {fbuffer : Nat → UInt8} {flen : Nat} {a : Access} :
    a ∈ framing fbuffer flen ↔
      a ∈ clearRows flen ∨ (∃ i, i < fn flen - 1 ∧ a ∈ frontRow fbuffer i) ∨
        a ∈ lastRow fbuffer flen (fn flen - 1) := by
  have hpos : fn flen - 1 < fn flen := Nat.lt_succ_self _
  unfold framing
  rw [List.mem_append, List.mem_flatMap]
  apply or_congr_right
  constructor
  · rintro ⟨i, hi, hmem⟩
    have hrow : i < fn flen := List.mem_range.mp hi
    by_cases hfront : i < fn flen - 1
    · rw [if_pos hfront] at hmem
      exact Or.inl ⟨i, hfront, hmem⟩
    · rw [if_neg hfront] at hmem
      obtain rfl : i = fn flen - 1 := by omega
      exact Or.inr hmem
  · rintro (⟨i, hfront, hmem⟩ | hmem)
    · exact ⟨i, List.mem_range.mpr (by omega), by rwa [if_pos hfront]⟩
    · exact ⟨fn flen - 1, List.mem_range.mpr hpos, by rwa [if_neg (Nat.lt_irrefl _)]⟩

/-- Every byte of the file is read into a frame. -/
theorem reads_every_byte (fbuffer : Nat → UInt8) {flen x : Nat} (hflen : wlen ≤ flen)
    (hx : x < flen) : Access.readFbuffer x ∈ framing fbuffer flen := by
  rw [mem_framing]
  right
  by_cases hlast : inc * (fn flen - 1) ≤ x
  · -- the last row takes everything from its start on
    rcases jLen_bounds hflen with ⟨hstart, -, -⟩
    right
    refine mem_lastRow.mpr ⟨x - inc * (fn flen - 1), by omega, ?_⟩
    unfold copyByte
    rw [Nat.add_sub_cancel' hlast]
    exact List.mem_cons_self
  · -- the frames overlap, so the one that starts last before `x` has it
    left
    have hinc : 0 < inc := by decide
    have hdiv := Nat.div_add_mod x inc
    have hmod : x % inc < inc := Nat.mod_lt x hinc
    have hrow : x / inc < fn flen - 1 := Nat.div_lt_of_lt_mul (Nat.lt_of_not_le hlast)
    have hlt : inc < wlen := by decide
    refine ⟨x / inc, hrow, mem_frontRow.mpr ⟨x % inc, by omega, ?_⟩⟩
    unfold copyByte
    rw [hdiv]
    exact List.mem_cons_self

/-- Exactly the last row leaves the arrays: it reads the byte behind the file and
stores into the cells from `wlen` to `j_len` of its row. -/
theorem outOfBounds_iff (fbuffer : Nat → UInt8) {flen : Nat} (hflen : wlen ≤ flen) (a : Access) :
    a ∈ framing fbuffer flen ∧ ¬ a.InBounds flen ↔
      ∃ k, a ∈ copyByte fbuffer (fn flen - 1) k k ∧
        (a = .readFbuffer flen ∧ k = jLen flen ∨
          ∃ v, a = .storeArr (fn flen - 1) k v ∧ wlen ≤ k ∧ k ≤ jLen flen) := by
  rcases jLen_bounds hflen with ⟨hstart, hjLen, -⟩
  constructor
  · rintro ⟨hmem, hout⟩
    rcases mem_framing.mp hmem with hclear | ⟨i, hi, hfront⟩ | hlast
    · exact absurd (clearRows_inBounds hclear) hout
    · exact absurd (frontRow_inBounds fbuffer hflen hi hfront) hout
    · rcases mem_lastRow.mp hlast with ⟨k, hk, hbyte⟩
      refine ⟨k, hbyte, ?_⟩
      rcases mem_copyByte hbyte with rfl | ⟨v, rfl⟩
      · have hge : ¬ inc * (fn flen - 1) + k < flen := hout
        obtain rfl : k = jLen flen := by omega
        left
        rw [hstart]
        exact ⟨rfl, rfl⟩
      · have hpos : fn flen - 1 < fn flen := Nat.lt_succ_self _
        have hge : ¬ k < wlen := fun h => hout ⟨hpos, h⟩
        exact Or.inr ⟨v, rfl, Nat.le_of_not_lt hge, hk⟩
  · rintro ⟨k, hbyte, ⟨rfl, rfl⟩ | ⟨v, rfl, hge, hle⟩⟩
    · refine ⟨mem_framing.mpr (Or.inr (Or.inr (mem_lastRow.mpr ⟨_, Nat.le_refl _, hbyte⟩))), ?_⟩
      exact Nat.lt_irrefl flen
    · refine ⟨mem_framing.mpr (Or.inr (Or.inr (mem_lastRow.mpr ⟨k, hle, hbyte⟩))), ?_⟩
      rintro ⟨-, hlt⟩
      omega

/-- The framing loops leave their arrays for every file of at least 200 bytes. -/
theorem framing_not_exact (fbuffer : Nat → UInt8) {flen : Nat} (hflen : wlen ≤ flen) :
    ¬ Exact flen (framing fbuffer flen) := by
  rcases jLen_bounds hflen with ⟨hstart, -, -⟩
  rintro ⟨hbounds, -⟩
  have hbyte : Access.readFbuffer flen ∈
      copyByte fbuffer (fn flen - 1) (jLen flen) (jLen flen) := by
    unfold copyByte
    rw [hstart]
    exact List.mem_cons_self
  rcases (outOfBounds_iff fbuffer hflen _).mpr ⟨_, hbyte, Or.inl ⟨rfl, rfl⟩⟩ with ⟨hmem, hout⟩
  exact hout (hbounds _ hmem)

/-- A file of 200 bytes. -/
theorem framing_not_exact_200 : ¬ Exact 200 (framing (fun _ => 0) 200) :=
  framing_not_exact (fun _ => 0) (by decide)

/-- A file of 200 bytes has one frame, which takes 201 bytes. -/
theorem framing_one_frame :
    Access.readFbuffer 200 ∈ framing (fun _ => 0) 200 ∧
      Access.storeArr 0 200 0 ∈ framing (fun _ => 0) 200 ∧
      ¬ Exact 200 (framing (fun _ => 0) 200) := by
  have hlast : ∀ a ∈ copyByte (fun _ => 0) 0 200 200, a ∈ framing (fun _ => 0) 200 := by
    intro a ha
    exact mem_framing.mpr (Or.inr (Or.inr (mem_lastRow.mpr ⟨200, by decide, ha⟩)))
  have hread : Access.readFbuffer 200 ∈ framing (fun _ => 0) 200 := hlast _ (by decide)
  refine ⟨hread, hlast _ (by decide), ?_⟩
  rintro ⟨hbounds, -⟩
  exact Nat.lt_irrefl 200 (hbounds _ hread)

end Framing
end Ls2kMorse
