import Ls2kMorse.Recognizer.DecisionLoop

/-!
# The run-length specification of the decision loop

The specification reads the marks off the energies by first indices: a mark
starts at the first frame above the threshold after the last mark and stops at
the first later frame below it.  Each mark and each gap is then translated by
its length alone, and `MORSE_START` is put in front of the first mark that has a
translation.

Main results:

- Theorem `produced_eq_runLengthSymbols`: the state machine inserts the start
  symbol where the specification does.
- Theorem `decisionLoop_segments`: the decision loop of
  `morse_process_once_thread` fills `jud` with the specified symbols.
-/

namespace Ls2kMorse

open Lib Lib.Hysteresis

/-! ## Specification -/

section Specification

variable (mark : Nat → Option Int) (gap : Nat → List Int)

/-- The symbols of one run, the start symbol left aside. -/
def runSymbols : Run → List Int
  | .mark H => (mark H).toList
  | .gap L => gap L

/-- Whether a run is a mark whose length has a translation. -/
def isClassified : Run → Bool
  | .mark H => (mark H).isSome
  | .gap _ => false

/-- The symbols from the first classified mark on, if there is one. -/
def fromFirstMark : List Run → List Int
  | [] => []
  | r :: rs => MORSE_START :: (r :: rs).flatMap (runSymbols mark gap)

/-- The symbols of all runs, with `MORSE_START` just before the first classified
mark. -/
def runLengthSymbols (runs : List Run) : List Int :=
  (runs.takeWhile fun r => !isClassified mark r).flatMap (runSymbols mark gap) ++
    fromFirstMark mark gap (runs.dropWhile fun r => !isClassified mark r)

/-- From a classified mark on, the specification is the start symbol and the
symbols of all runs. -/
theorem runLengthSymbols_of_classified {H : Nat} (h : (mark H).isSome) (rs : List Run) :
    runLengthSymbols mark gap (.mark H :: rs) =
      MORSE_START :: (Run.mark H :: rs).flatMap (runSymbols mark gap) := by
  simp [runLengthSymbols, isClassified, fromFirstMark, h]

end Specification

/-- The element of a mark of `H` frames: a dot for 10 to 34 frames, a dash for
35 to 49 frames, nothing for any other length. -/
def onceMark (H : Nat) : Option Int :=
  if 10 ≤ H ∧ H ≤ 34 then some MORSE_DIAN
  else if 35 ≤ H ∧ H ≤ 49 then some MORSE_HUA
  else none

/-- The separators of a gap of `L` frames: one for 7 to 15 frames, the word
triple for more, nothing for at most 6. -/
def onceGap (L : Nat) : List Int :=
  if 7 ≤ L ∧ L ≤ 15 then [MORSE_ZIFU_KONG]
  else if 15 < L then [MORSE_ZIFU_KONG, MORSE_CI_KONG, MORSE_ZIFU_KONG]
  else []

/-- The marks and gaps of an energy sequence at the threshold 1000000. -/
def onceRuns (En : List Int) : List Run :=
  (segment (fun en : Int => 1000000 < en) (fun en : Int => en < 1000000) En).runs

/-- The specified symbols of an energy sequence. -/
def onceSymbols (En : List Int) : List Int :=
  runLengthSymbols onceMark onceGap (onceRuns En)

/-! ## The state machine meets the specification -/

section Refinement

variable (th : Thresholds)

/-- After the first element, runs are translated one by one. -/
theorem produced_true (runs : List Run) :
    produced th true runs =
      runs.flatMap (runSymbols (fun H => th.markSymbol H) fun L => th.gapSymbols L) := by
  induction runs with
  | nil => rfl
  | cons r rs ih =>
      rw [List.flatMap_cons, ← ih]
      cases r with
      | mark H => cases h : th.markSymbol H <;> simp [produced, runSymbols, startedSymbols, h]
      | gap L => rfl

/-- Before the first element, the start symbol comes with the first classified
mark. -/
theorem produced_eq_runLengthSymbols (runs : List Run) :
    produced th false runs =
      runLengthSymbols (fun H => th.markSymbol H) (fun L => th.gapSymbols L) runs := by
  induction runs with
  | nil => rfl
  | cons r rs ih =>
      cases r with
      | mark H =>
          cases h : th.markSymbol H with
          | none =>
              rw [produced, h]
              simp [ih, runLengthSymbols, isClassified, runSymbols, h]
          | some symbol =>
              rw [produced, h]
              simp [produced_true, runLengthSymbols, fromFirstMark, isClassified, runSymbols,
                startedSymbols, h]
      | gap L =>
          rw [produced, ih]
          simp [runLengthSymbols, isClassified, runSymbols]

end Refinement

/-- The mark symbols of `morse_process_once`. -/
theorem markSymbol_once (H : Nat) : morseProcessOnce.markSymbol H = onceMark H := by
  have hdian : ((H : Int) ≥ 10 ∧ (H : Int) < 35) ↔ (10 ≤ H ∧ H ≤ 34) := by omega
  have hhua : ((H : Int) ≥ 35 ∧ (H : Int) < 50) ↔ (35 ≤ H ∧ H ≤ 49) := by omega
  simp only [Thresholds.markSymbol, onceMark, morseProcessOnce, hdian, hhua]

/-- The gap symbols of `morse_process_once`. -/
theorem gapSymbols_once (L : Nat) : morseProcessOnce.gapSymbols L = onceGap L := by
  have hzifu : ((L : Int) > 6 ∧ (L : Int) ≤ 15) ↔ (7 ≤ L ∧ L ≤ 15) := by omega
  have hci : (L : Int) > 15 ↔ 15 < L := by omega
  simp only [Thresholds.gapSymbols, onceGap, morseProcessOnce, hzifu, hci]

/-- The symbols of the decision loop of `morse_process_once_thread` are the
specified ones. -/
theorem producedFrom_once (En : List Int) :
    producedFrom morseProcessOnce En = onceSymbols En := by
  have hmark : (fun H : Nat => morseProcessOnce.markSymbol H) = onceMark :=
    funext markSymbol_once
  have hgap : (fun L : Nat => morseProcessOnce.gapSymbols L) = onceGap :=
    funext gapSymbols_once
  unfold producedFrom onceSymbols
  rw [scan_eq_segment_runs, produced_eq_runLengthSymbols, hmark, hgap]
  rfl

/-- The decision loop of `morse_process_once_thread` fills `jud` with the symbols
of the run-length specification, followed by zeros, and `k` is their number.  It
writes outside `jud` exactly when they are more than 200. -/
theorem decisionLoop_once (m₀ n₀ : Int) (En : List Int) :
    (decisionLoop morseProcessOnce m₀ n₀ En).map Decision.jud =
      if (onceSymbols En).length ≤ 200 then
        some (WriteBuffer.holding MORSE_FINSH 200 (onceSymbols En))
      else none := by
  rw [decisionLoop_jud, producedFrom_once]

/-- Segmentation equals its run-length specification: while at most 200 symbols
are produced, the loop returns with exactly these symbols in `jud`. -/
theorem decisionLoop_segments (m₀ n₀ : Int) (En : List Int)
    (hlen : (onceSymbols En).length ≤ 200) :
    ∃ s, decisionLoop morseProcessOnce m₀ n₀ En = some s ∧
      s.jud.cells =
        onceSymbols En ++ List.replicate (200 - (onceSymbols En).length) MORSE_FINSH ∧
      s.jud.pos = (onceSymbols En).length := by
  have hrun := decisionLoop_once m₀ n₀ En
  rw [if_pos hlen, Option.map_eq_some_iff] at hrun
  rcases hrun with ⟨s, hs, hjud⟩
  exact ⟨s, hs, by rw [hjud]; rfl, by rw [hjud]; rfl⟩

/-- Frames of a level, as often as each pair says. -/
def frames (runs : List (Nat × Int)) : List Int :=
  runs.flatMap fun (n, en) => List.replicate n en

/-- The letters `A` and `E` and, as another word, `T`: a gap of each class. -/
theorem decisionLoop_segments_words :
    let En := frames [(2, 0), (10, 2000000), (3, 0), (40, 2000000), (10, 0), (20, 2000000),
      (30, 0), (36, 2000000), (4, 0)]
    ∃ s, decisionLoop morseProcessOnce 0 0 En = some s ∧
      s.jud.cells = onceSymbols En ++
        List.replicate (200 - (onceSymbols En).length) MORSE_FINSH ∧
      s.jud.pos = (onceSymbols En).length ∧
      onceSymbols En = [MORSE_START, MORSE_DIAN, MORSE_HUA, MORSE_ZIFU_KONG, MORSE_DIAN,
        MORSE_ZIFU_KONG, MORSE_CI_KONG, MORSE_ZIFU_KONG, MORSE_HUA] := by
  intro En
  have hsymbols : onceSymbols En = [MORSE_START, MORSE_DIAN, MORSE_HUA, MORSE_ZIFU_KONG,
      MORSE_DIAN, MORSE_ZIFU_KONG, MORSE_CI_KONG, MORSE_ZIFU_KONG, MORSE_HUA] := by
    rw [← producedFrom_once]
    decide
  have hlength : (onceSymbols En).length ≤ 200 := by
    rw [hsymbols]
    decide
  rcases decisionLoop_segments 0 0 En hlength with ⟨s, hs, hcells, hpos⟩
  exact ⟨s, hs, hcells, hpos, hsymbols⟩

end Ls2kMorse
