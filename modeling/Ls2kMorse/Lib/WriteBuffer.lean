import Mathlib.Data.List.Basic

/-!
# Fixed arrays written through a cursor

Many C routines fill a fixed array from the front: a cell is stored at the
cursor and the cursor moves on, while the cells behind it keep the value the
array was cleared with.  This module gives that idiom one bounded model, in
which a store outside the array is an explicit failure, and relates it to the
list of the values stored so far.

Main results:

- Theorem `WriteBuffer.put_holding`: below the capacity one store appends one
  value.
- Theorem `WriteBuffer.putAll_holding`: a sequence of stores succeeds exactly
  when the values fit, and then appends them all.
- Theorem `WriteBuffer.holding_injective`: the buffer determines the values
  that were stored.
- Theorem `WriteBuffer.holding_cells_injective`: so do its cells, unless the fill
  value was stored.
-/

namespace Ls2kMorse
namespace Lib

/-- An array together with the index of the next store. -/
structure WriteBuffer (α : Type) where
  cells : List α
  pos : Nat
deriving Repr, DecidableEq

namespace WriteBuffer

variable {α : Type}

/-- The cleared array: every cell holds the fill value. -/
def cleared (fill : α) (capacity : Nat) : WriteBuffer α where
  cells := List.replicate capacity fill
  pos := 0

/-- Store at the cursor and advance it; a store past the last cell fails. -/
def put (b : WriteBuffer α) (v : α) : Option (WriteBuffer α) :=
  if b.pos < b.cells.length then
    some { cells := b.cells.set b.pos v, pos := b.pos + 1 }
  else none

/-- Store a sequence of values in order. -/
def putAll (b : WriteBuffer α) : List α → Option (WriteBuffer α)
  | [] => some b
  | v :: vs => (b.put v).bind fun b' => b'.putAll vs

/-- The buffer reached from the cleared array by storing `l`: the values in
front, the fill value behind them. -/
def holding (fill : α) (capacity : Nat) (l : List α) : WriteBuffer α where
  cells := l ++ List.replicate (capacity - l.length) fill
  pos := l.length

@[simp]
theorem holding_nil (fill : α) (capacity : Nat) :
    holding fill capacity [] = cleared fill capacity := by
  simp [holding, cleared]

@[simp]
theorem holding_pos (fill : α) (capacity : Nat) (l : List α) :
    (holding fill capacity l).pos = l.length :=
  rfl

@[simp]
theorem holding_cells (fill : α) (capacity : Nat) (l : List α) :
    (holding fill capacity l).cells =
      l ++ List.replicate (capacity - l.length) fill :=
  rfl

@[simp]
theorem putAll_nil (b : WriteBuffer α) : b.putAll [] = some b :=
  rfl

theorem putAll_cons (b : WriteBuffer α) (v : α) (vs : List α) :
    b.putAll (v :: vs) = (b.put v).bind fun b' => b'.putAll vs :=
  rfl

/-- Storing two sequences one after the other stores their concatenation. -/
theorem putAll_append (b : WriteBuffer α) (xs ys : List α) :
    b.putAll (xs ++ ys) = (b.putAll xs).bind fun b' => b'.putAll ys := by
  induction xs generalizing b with
  | nil => rfl
  | cons x xs ih =>
      rw [List.cons_append, putAll_cons, putAll_cons, Option.bind_assoc]
      congr 1
      funext b'
      exact ih b'

/-- Below the capacity, one store appends one value. -/
theorem put_holding {fill : α} {capacity : Nat} {l : List α}
    (h : l.length < capacity) (v : α) :
    (holding fill capacity l).put v = some (holding fill capacity (l ++ [v])) := by
  obtain ⟨d, rfl⟩ : ∃ d, capacity = l.length + (d + 1) := ⟨capacity - l.length - 1, by omega⟩
  have hset : (l ++ List.replicate (d + 1) fill).set l.length v =
      (l ++ [v]) ++ List.replicate d fill := by
    rw [List.set_append_right _ _ (Nat.le_refl _)]
    simp [List.replicate_succ]
  have hd : l.length + (d + 1) - (l.length + 1) = d := by omega
  simp [put, holding, hset, hd]

/-- A full array accepts no further store. -/
theorem put_holding_full {fill : α} {capacity : Nat} {l : List α}
    (h : capacity ≤ l.length) (v : α) :
    (holding fill capacity l).put v = none := by
  simp [put, holding]
  omega

/-- A sequence of stores appends all its values when they fit and fails when
they do not. -/
theorem putAll_holding {fill : α} {capacity : Nat} {l : List α}
    (hl : l.length ≤ capacity) (vs : List α) :
    (holding fill capacity l).putAll vs =
      if l.length + vs.length ≤ capacity then
        some (holding fill capacity (l ++ vs))
      else none := by
  induction vs generalizing l with
  | nil => simp [hl]
  | cons v vs ih =>
      rw [putAll_cons]
      rcases Nat.lt_or_ge l.length capacity with hlt | hge
      · have hnext : (l ++ [v]).length ≤ capacity := by simpa using Nat.succ_le_of_lt hlt
        rw [put_holding hlt, Option.bind_some, ih hnext]
        have hsum : (l ++ [v]).length + vs.length = l.length + (v :: vs).length := by
          simp only [List.length_append, List.length_cons, List.length_nil]
          omega
        rw [hsum, List.append_assoc]
        rfl
      · have hfull : ¬ l.length + (v :: vs).length ≤ capacity := by
          simp only [List.length_cons]
          omega
        rw [put_holding_full hge, if_neg hfull]
        rfl

/-- Storing into a cleared array. -/
theorem putAll_cleared (fill : α) (capacity : Nat) (vs : List α) :
    (cleared fill capacity).putAll vs =
      if vs.length ≤ capacity then some (holding fill capacity vs) else none := by
  have h : (holding fill capacity []).putAll vs = _ := putAll_holding (Nat.zero_le _) vs
  simpa using h

/-- The stored values can be read back off the buffer. -/
theorem holding_injective {fill : α} {capacity : Nat} {l l' : List α}
    (h : holding fill capacity l = holding fill capacity l') : l = l' := by
  have hpos : l.length = l'.length := congrArg pos h
  have hcells : l ++ List.replicate (capacity - l.length) fill =
      l' ++ List.replicate (capacity - l'.length) fill := congrArg cells h
  exact (List.append_inj hcells hpos).1

/-- Values other than the fill value can be read back off the cells alone. -/
theorem holding_cells_injective {fill : α} {capacity : Nat} {l l' : List α} (hl : fill ∉ l)
    (hl' : fill ∉ l')
    (h : (holding fill capacity l).cells = (holding fill capacity l').cells) : l = l' := by
  simp only [holding_cells] at h
  generalize capacity - l.length = m at h
  generalize capacity - l'.length = n at h
  induction l generalizing l' with
  | nil =>
      cases l' with
      | nil => rfl
      | cons v' l' =>
          cases m with
          | zero => simp at h
          | succ m =>
              rw [List.replicate_succ] at h
              have hv : fill = v' := (List.cons.inj h).1
              exact absurd (hv ▸ List.mem_cons_self) hl'
  | cons v l ih =>
      cases l' with
      | nil =>
          cases n with
          | zero => simp at h
          | succ n =>
              rw [List.replicate_succ] at h
              have hv : v = fill := (List.cons.inj h).1
              exact absurd (hv ▸ List.mem_cons_self) hl
      | cons v' l' =>
          rcases List.cons.inj h with ⟨hv, hrest⟩
          rw [hv, ih (fun hmem => hl (List.mem_cons_of_mem v hmem))
            (fun hmem => hl' (List.mem_cons_of_mem v' hmem)) hrest]

end WriteBuffer

end Lib
end Ls2kMorse
