import Mathlib.Data.List.Basic
import Mathlib.Tactic.Common

/-!
# Two-threshold segmentation of a sequence

A level detector with two thresholds opens an interval at the first element
above the upper threshold and closes it at the first later element below the
lower one.  Elements between the thresholds neither open nor close.  The module
contains the declarative segmentation, stated by first indices, and the online
scanner that reads the sequence once; the two produce the same alternation of
mark and gap lengths.

Main results:

- Theorem `firstIdx_eq_some_iff`: `firstIdx` is the least admissible index.
- Theorem `scan_eq_segment_runs`: the online scanner computes the declarative
  segmentation.
- Theorems `scan_quiet_block`, `scan_low_block` and `scan_high_block`: a block
  of elements that does not cross the awaited threshold only moves the index.
-/

namespace Ls2kMorse
namespace Lib
namespace Hysteresis

variable {α : Type}

/-! ## First indices -/

/-- The first index from `i` on whose element satisfies `p`. -/
def firstIdx (p : α → Prop) [DecidablePred p] (xs : List α) (i : Nat) : Option Nat :=
  ((xs.drop i).findIdx? fun x => decide (p x)).map fun d => i + d

/-- `firstIdx` returns exactly the least admissible index. -/
theorem firstIdx_eq_some_iff {p : α → Prop} [DecidablePred p] {xs : List α} {i m : Nat} :
    firstIdx p xs i = some m ↔
      i ≤ m ∧ (∃ x, xs[m]? = some x ∧ p x) ∧
        ∀ j, i ≤ j → j < m → ∀ x, xs[j]? = some x → ¬ p x := by
  simp only [firstIdx, Option.map_eq_some_iff, List.findIdx?_eq_some_iff_getElem]
  constructor
  · rintro ⟨d, ⟨hd, hp, hfirst⟩, rfl⟩
    have hlt : i + d < xs.length := by
      simp only [List.length_drop] at hd
      omega
    refine ⟨Nat.le_add_right i d, ⟨xs[i + d], by simp [hlt], by simpa using hp⟩, ?_⟩
    intro j hij hjm x hx
    have hj := hfirst (j - i) (by omega)
    have hidx : i + (j - i) = j := by omega
    have hlen : j < xs.length := by omega
    rw [List.getElem_drop] at hj
    simp only [hidx, decide_eq_true_eq] at hj
    rw [List.getElem?_eq_getElem hlen, Option.some.injEq] at hx
    rwa [hx] at hj
  · rintro ⟨him, ⟨x, hx, hpx⟩, hfirst⟩
    rcases List.getElem?_eq_some_iff.mp hx with ⟨hlt, rfl⟩
    have hidx : i + (m - i) = m := by omega
    refine ⟨m - i, ⟨by simp only [List.length_drop]; omega, ?_, ?_⟩, hidx⟩
    · rw [List.getElem_drop]
      simpa only [hidx, decide_eq_true_eq] using hpx
    · intro j hj
      have hlen : i + j < xs.length := by omega
      rw [List.getElem_drop]
      simpa using hfirst (i + j) (by omega) (by omega) _ (List.getElem?_eq_getElem hlen)

/-- A first index lies inside the sequence, not before the start of the search. -/
theorem firstIdx_bounds {p : α → Prop} [DecidablePred p] {xs : List α} {i m : Nat}
    (h : firstIdx p xs i = some m) : i ≤ m ∧ m < xs.length := by
  rcases firstIdx_eq_some_iff.mp h with ⟨him, ⟨x, hx, _⟩, _⟩
  exact ⟨him, (List.getElem?_eq_some_iff.mp hx).1⟩

/-! ## The declarative segmentation -/

/-- A closed interval of the detector, from its opening to its closing index. -/
structure Interval where
  start : Nat
  stop : Nat
  start_lt_stop : start < stop

/-- Number of elements from the opening index up to the closing one. -/
def Interval.length (iv : Interval) : Nat :=
  iv.stop - iv.start

/-- The closed intervals in order, and the start of an interval left open. -/
structure Segmentation where
  closed : List Interval
  openStart : Option Nat

/-- Lengths of marks and of the gaps between a closed mark and the next start. -/
inductive Run where
  | mark (length : Nat)
  | gap (length : Nat)
deriving Repr, DecidableEq

/-- The gap between a closing index and the next start, if there is one. -/
def gapUntil (stop : Nat) : Option Nat → List Run
  | none => []
  | some start => [.gap (start - stop)]

/-- The start of the first interval of a segmentation, open or closed. -/
def nextStart : List Interval → Option Nat → Option Nat
  | [], openStart => openStart
  | iv :: _, _ => some iv.start

/-- The alternation of mark lengths and gap lengths of a segmentation. -/
def alternation : List Interval → Option Nat → List Run
  | [], _ => []
  | iv :: rest, openStart =>
      .mark iv.length :: (gapUntil iv.stop (nextStart rest openStart) ++
        alternation rest openStart)

/-- The runs of a segmentation: a mark that never closes is dropped, the gap
in front of it is kept. -/
def Segmentation.runs (s : Segmentation) : List Run :=
  alternation s.closed s.openStart

section Segment

variable (above below : α → Prop) [DecidablePred above] [DecidablePred below]

/-- The intervals from index `i` on: each starts at the first element above and
stops at the first later element below. -/
def segmentFrom (xs : List α) (i : Nat) : Segmentation :=
  match hstart : firstIdx above xs i with
  | none => { closed := [], openStart := none }
  | some m =>
      match hstop : firstIdx below xs (m + 1) with
      | none => { closed := [], openStart := some m }
      | some n =>
          have _hm := firstIdx_bounds hstart
          have hn := firstIdx_bounds hstop
          { closed := ⟨m, n, hn.1⟩ :: (segmentFrom xs (n + 1)).closed
            openStart := (segmentFrom xs (n + 1)).openStart }
termination_by xs.length - i

/-- The segmentation of a whole sequence. -/
def segment (xs : List α) : Segmentation :=
  segmentFrom above below xs 0

/-! ## The online scanner -/

/-- What the scanner remembers: nothing yet, the start of the open mark, or the
end of the last closed mark. -/
inductive Level where
  | quiet
  | high (start : Nat)
  | low (stop : Nat)
deriving Repr, DecidableEq

/-- Read the sequence once from index `i`, reporting each mark when it closes
and each gap when the next mark opens. -/
def scan : Level → Nat → List α → List Run
  | _, _, [] => []
  | .quiet, i, x :: xs =>
      if above x then scan (.high i) (i + 1) xs else scan .quiet (i + 1) xs
  | .high m, i, x :: xs =>
      if below x then .mark (i - m) :: scan (.low i) (i + 1) xs
      else scan (.high m) (i + 1) xs
  | .low n, i, x :: xs =>
      if above x then .gap (i - n) :: scan (.high i) (i + 1) xs
      else scan (.low n) (i + 1) xs

/-- While quiet, the scanner passes over what is not above. -/
theorem scan_quiet_skip (x : α) (i : Nat) (xs : List α) (hx : ¬ above x) :
    scan above below .quiet i (x :: xs) = scan above below .quiet (i + 1) xs := by
  rw [scan, if_neg hx]

/-- In a gap, too. -/
theorem scan_low_skip (n : Nat) (x : α) (i : Nat) (xs : List α) (hx : ¬ above x) :
    scan above below (.low n) i (x :: xs) = scan above below (.low n) (i + 1) xs := by
  rw [scan, if_neg hx]

/-- In a mark, it passes over what is not below. -/
theorem scan_high_skip (m : Nat) (x : α) (i : Nat) (xs : List α) (hx : ¬ below x) :
    scan above below (.high m) i (x :: xs) = scan above below (.high m) (i + 1) xs := by
  rw [scan, if_neg hx]

variable {above below}

@[simp]
theorem scan_nil (level : Level) (i : Nat) : scan above below level i [] = [] := by
  cases level <;> rfl

/-- A block that the scanner passes over only moves the index. -/
theorem scan_block {level : Level} {p : α → Prop}
    (hskip : ∀ x i xs, ¬ p x →
      scan above below level i (x :: xs) = scan above below level (i + 1) xs)
    {block : List α} (hblock : ∀ x ∈ block, ¬ p x) (i : Nat) (xs : List α) :
    scan above below level i (block ++ xs) =
      scan above below level (i + block.length) xs := by
  induction block generalizing i with
  | nil => rfl
  | cons x block ih =>
      have hx : ¬ p x := hblock x List.mem_cons_self
      rw [List.cons_append, hskip x i _ hx,
        ih (fun y hy => hblock y (List.mem_cons_of_mem x hy))]
      congr 1
      simp only [List.length_cons]
      omega

/-- While quiet, a block without an element above only moves the index. -/
theorem scan_quiet_block {gs : List α} (hgs : ∀ x ∈ gs, ¬ above x) (i : Nat) (xs : List α) :
    scan above below .quiet i (gs ++ xs) = scan above below .quiet (i + gs.length) xs :=
  scan_block (scan_quiet_skip above below) hgs i xs

/-- In a gap, a block without an element above only moves the index. -/
theorem scan_low_block {gs : List α} (hgs : ∀ x ∈ gs, ¬ above x) (n i : Nat) (xs : List α) :
    scan above below (.low n) i (gs ++ xs) = scan above below (.low n) (i + gs.length) xs :=
  scan_block (scan_low_skip above below n) hgs i xs

/-- In a mark, a block without an element below only moves the index. -/
theorem scan_high_block {fs : List α} (hfs : ∀ x ∈ fs, ¬ below x) (m i : Nat) (xs : List α) :
    scan above below (.high m) i (fs ++ xs) = scan above below (.high m) (i + fs.length) xs :=
  scan_block (scan_high_skip above below m) hfs i xs

/-! ## The scanner computes the segmentation -/

/-- Split a sequence at its first admissible index. -/
private theorem firstIdx_split (p : α → Prop) [DecidablePred p] (xs : List α) (i : Nat) :
    (firstIdx p xs i = none ∧ ∀ x ∈ xs.drop i, ¬ p x) ∨
      ∃ m x, firstIdx p xs i = some m ∧ i ≤ m ∧ p x ∧
        ∃ block, xs.drop i = block ++ x :: xs.drop (m + 1) ∧
          block.length = m - i ∧ ∀ y ∈ block, ¬ p y := by
  cases hfirst : firstIdx p xs i with
  | none =>
      left
      refine ⟨rfl, ?_⟩
      simpa [firstIdx, List.findIdx?_eq_none_iff] using hfirst
  | some m =>
      right
      rcases firstIdx_eq_some_iff.mp hfirst with ⟨him, ⟨x, hx, hpx⟩, hbefore⟩
      rcases List.getElem?_eq_some_iff.mp hx with ⟨hlt, rfl⟩
      refine ⟨m, xs[m], rfl, him, hpx, (xs.drop i).take (m - i), ?_, ?_, ?_⟩
      · have hdrop : (xs.drop i).drop (m - i) = xs.drop m := by
          rw [List.drop_drop]
          congr 1
          omega
        calc
          xs.drop i = (xs.drop i).take (m - i) ++ (xs.drop i).drop (m - i) :=
            (List.take_append_drop _ _).symm
          _ = (xs.drop i).take (m - i) ++ xs[m] :: xs.drop (m + 1) := by
            rw [hdrop, List.drop_eq_getElem_cons hlt]
      · simp only [List.length_take, List.length_drop]
        omega
      · intro y hy
        rcases List.mem_iff_getElem.mp hy with ⟨j, hj, rfl⟩
        simp only [List.length_take, List.length_drop] at hj
        rw [List.getElem_take, List.getElem_drop]
        exact hbefore (i + j) (by omega) (by omega) _ (List.getElem?_eq_getElem (by omega))

/-- A scanner that passes over everything else waits for the first admissible element. -/
theorem scan_wait {level : Level} {p : α → Prop} [DecidablePred p]
    (hskip : ∀ x i xs, ¬ p x →
      scan above below level i (x :: xs) = scan above below level (i + 1) xs)
    (xs : List α) (i : Nat) :
    (firstIdx p xs i = none ∧ scan above below level i (xs.drop i) = []) ∨
      ∃ m x, firstIdx p xs i = some m ∧ p x ∧
        scan above below level i (xs.drop i) =
          scan above below level m (x :: xs.drop (m + 1)) := by
  rcases firstIdx_split p xs i with
    ⟨hnone, hall⟩ | ⟨m, x, hsome, him, hx, block, hsplit, hlen, hblock⟩
  · have h : scan above below level i (xs.drop i ++ []) = _ := scan_block hskip hall i []
    rw [List.append_nil, scan_nil] at h
    exact Or.inl ⟨hnone, h⟩
  · have hidx : i + block.length = m := by omega
    refine Or.inr ⟨m, x, hsome, hx, ?_⟩
    rw [hsplit, scan_block hskip hblock, hidx]

/-- A quiet scanner waits for the first element above. -/
theorem scan_quiet (xs : List α) (i : Nat) :
    scan above below .quiet i (xs.drop i) =
      match firstIdx above xs i with
      | none => []
      | some m => scan above below (.high m) (m + 1) (xs.drop (m + 1)) := by
  rcases scan_wait (scan_quiet_skip above below) xs i with ⟨hnone, h⟩ | ⟨m, x, hsome, hx, h⟩
  · rw [hnone, h]
  · rw [hsome, h, scan, if_pos hx]

/-- A scanner in a gap waits for the first element above and reports the gap. -/
theorem scan_low (xs : List α) (n i : Nat) :
    scan above below (.low n) i (xs.drop i) =
      gapUntil n (firstIdx above xs i) ++ scan above below .quiet i (xs.drop i) := by
  rw [scan_quiet]
  rcases scan_wait (scan_low_skip above below n) xs i with ⟨hnone, h⟩ | ⟨m, x, hsome, hx, h⟩
  · rw [hnone, h]
    rfl
  · rw [hsome, h, scan, if_pos hx]
    rfl

/-- A scanner in a mark waits for the first element below and reports the mark. -/
theorem scan_high (xs : List α) (m i : Nat) :
    scan above below (.high m) i (xs.drop i) =
      match firstIdx below xs i with
      | none => []
      | some n => .mark (n - m) :: scan above below (.low n) (n + 1) (xs.drop (n + 1)) := by
  rcases scan_wait (scan_high_skip above below m) xs i with ⟨hnone, h⟩ | ⟨n, x, hsome, hx, h⟩
  · rw [hnone, h]
  · rw [hsome, h, scan, if_pos hx]

/-- Without a further element above, no interval follows. -/
theorem segmentFrom_quiet {xs : List α} {i : Nat} (hstart : firstIdx above xs i = none) :
    segmentFrom above below xs i = { closed := [], openStart := none } := by
  rw [segmentFrom]
  split
  next => rfl
  next m hm => simp [hm] at hstart

/-- A start without a later element below stays open. -/
theorem segmentFrom_open {xs : List α} {i m : Nat} (hstart : firstIdx above xs i = some m)
    (hstop : firstIdx below xs (m + 1) = none) :
    segmentFrom above below xs i = { closed := [], openStart := some m } := by
  rw [segmentFrom]
  split
  next hm => simp [hm] at hstart
  next m' hm =>
    obtain rfl : m' = m := Option.some.inj (hm.symm.trans hstart)
    split
    next => rfl
    next n hn => simp [hn] at hstop

/-- A start and its first later element below close an interval. -/
theorem segmentFrom_closed {xs : List α} {i m n : Nat} (hstart : firstIdx above xs i = some m)
    (hstop : firstIdx below xs (m + 1) = some n) :
    segmentFrom above below xs i =
      { closed := ⟨m, n, (firstIdx_bounds hstop).1⟩ ::
          (segmentFrom above below xs (n + 1)).closed
        openStart := (segmentFrom above below xs (n + 1)).openStart } := by
  rw [segmentFrom]
  split
  next hm => simp [hm] at hstart
  next m' hm =>
    obtain rfl : m' = m := Option.some.inj (hm.symm.trans hstart)
    split
    next hn => simp [hn] at hstop
    next n' hn =>
      obtain rfl : n' = n := Option.some.inj (hn.symm.trans hstop)
      rfl

/-- The first start of a segmentation is the first element above. -/
theorem nextStart_segmentFrom (xs : List α) (i : Nat) :
    nextStart (segmentFrom above below xs i).closed (segmentFrom above below xs i).openStart =
      firstIdx above xs i := by
  cases hstart : firstIdx above xs i with
  | none => rw [segmentFrom_quiet hstart]; rfl
  | some m =>
      cases hstop : firstIdx below xs (m + 1) with
      | none => rw [segmentFrom_open hstart hstop]; rfl
      | some n => rw [segmentFrom_closed hstart hstop]; rfl

/-- From every index on, the online scanner reports the declarative runs. -/
theorem scan_eq_segmentFrom_runs (xs : List α) (i : Nat) :
    scan above below .quiet i (xs.drop i) = (segmentFrom above below xs i).runs := by
  rw [scan_quiet]
  cases hstart : firstIdx above xs i with
  | none => rw [segmentFrom_quiet hstart]; rfl
  | some m =>
      simp only
      rw [scan_high]
      cases hstop : firstIdx below xs (m + 1) with
      | none => rw [segmentFrom_open hstart hstop]; rfl
      | some n =>
          have hm := firstIdx_bounds hstart
          have hn := firstIdx_bounds hstop
          have hrest := scan_eq_segmentFrom_runs xs (n + 1)
          simp only
          rw [scan_low, hrest, segmentFrom_closed hstart hstop, Segmentation.runs,
            Segmentation.runs, alternation, nextStart_segmentFrom]
          rfl
termination_by xs.length - i

/-- The online scanner computes the declarative segmentation. -/
theorem scan_eq_segment_runs (xs : List α) :
    scan above below .quiet 0 xs = (segment above below xs).runs :=
  scan_eq_segmentFrom_runs xs 0

end Segment

end Hysteresis
end Lib
end Ls2kMorse
