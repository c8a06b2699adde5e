import Ls2kMorse.Recognizer.Reception
import Ls2kMorse.Recognizer.StreamShape

/-!
# What the recogniser's buffers hold

The decision loop appends to `jud[200]` and the group decoder copies groups to
`c[7]` and characters to `code[31]`; none of the three indices is compared with
the size of its array.  This module says for which energy sequences, and for
which symbol arrays, each bound is kept.

Main results:

- Theorem `length_onceSymbols`: how many symbols a sequence of runs has.
- Theorem `decisionLoop_terminated_iff`: when `jud` keeps its terminator.
- Theorem `decisionLoop_decodable_iff`: when the decoder stays inside its arrays on
  what the decision loop has written.
-/

namespace Ls2kMorse

open Lib Lib.Hysteresis

/-! ## Counting symbols -/

/-- A mark of 10 to 49 frames. -/
def isElement : Run → Bool
  | .mark H => decide (10 ≤ H ∧ H ≤ 49)
  | .gap _ => false

/-- A gap of 7 to 15 frames. -/
def isLetterGap : Run → Bool
  | .mark _ => false
  | .gap L => decide (7 ≤ L ∧ L ≤ 15)

/-- A gap of more than 15 frames. -/
def isWordGap : Run → Bool
  | .mark _ => false
  | .gap L => decide (15 < L)

/-- One symbol for each element and letter gap, three for each word gap, and the
start symbol if there is an element. -/
def symbolCount (runs : List Run) : Nat :=
  min 1 (runs.countP isElement) + runs.countP isElement + runs.countP isLetterGap +
    3 * runs.countP isWordGap

/-- A run is classified when it is an element. -/
theorem isClassified_once (r : Run) : isClassified onceMark r = isElement r := by
  cases r with
  | gap L => rfl
  | mark H =>
      show (onceMark H).isSome = decide (10 ≤ H ∧ H ≤ 49)
      unfold onceMark
      by_cases hdot : 10 ≤ H ∧ H ≤ 34
      · have helement : 10 ≤ H ∧ H ≤ 49 := by omega
        rw [if_pos hdot, decide_eq_true helement]
        rfl
      · by_cases hdash : 35 ≤ H ∧ H ≤ 49
        · have helement : 10 ≤ H ∧ H ≤ 49 := by omega
          rw [if_neg hdot, if_pos hdash, decide_eq_true helement]
          rfl
        · have helement : ¬ (10 ≤ H ∧ H ≤ 49) := by omega
          rw [if_neg hdot, if_neg hdash, decide_eq_false helement]
          rfl

/-- A run gives one symbol for an element and a letter gap, three for a word gap. -/
theorem length_runSymbols (r : Run) :
    (runSymbols onceMark onceGap r).length =
      (if isElement r then 1 else 0) + (if isLetterGap r then 1 else 0) +
        3 * (if isWordGap r then 1 else 0) := by
  cases r with
  | mark H =>
      rw [← isClassified_once]
      unfold isClassified
      cases hmark : onceMark H <;> simp [runSymbols, hmark, isLetterGap, isWordGap]
  | gap L =>
      by_cases hletter : 7 ≤ L ∧ L ≤ 15
      · have hword : ¬ 15 < L := by omega
        simp [runSymbols, onceGap, isElement, isLetterGap, isWordGap, hletter, hword]
      · by_cases hword : 15 < L
        · simp [runSymbols, onceGap, isElement, isLetterGap, isWordGap, hletter, hword]
        · simp [runSymbols, onceGap, isElement, isLetterGap, isWordGap, hletter, hword]

/-- The number of symbols, counted on the runs. -/
theorem length_flatMap_runSymbols (runs : List Run) :
    (runs.flatMap (runSymbols onceMark onceGap)).length =
      runs.countP isElement + runs.countP isLetterGap + 3 * runs.countP isWordGap := by
  induction runs with
  | nil => rfl
  | cons r rs ih =>
      rw [List.flatMap_cons, List.length_append, ih, length_runSymbols, List.countP_cons,
        List.countP_cons, List.countP_cons]
      omega

/-- The number of symbols is counted off the runs. -/
theorem length_onceSymbols (En : List Int) :
    (onceSymbols En).length = symbolCount (onceRuns En) := by
  unfold onceSymbols runLengthSymbols symbolCount
  generalize onceRuns En = runs
  have hall := length_flatMap_runSymbols runs
  have hsplit := List.takeWhile_append_dropWhile
    (p := fun r => !isClassified onceMark r) (l := runs)
  rw [← hsplit, List.flatMap_append, List.length_append, hsplit] at hall
  rw [List.length_append]
  cases hafter : runs.dropWhile fun r => !isClassified onceMark r with
  | nil =>
      have hnone : runs.countP isElement = 0 := by
        rw [List.countP_eq_zero]
        intro r hr
        have hr' := List.dropWhile_eq_nil_iff.mp hafter r hr
        simpa [isClassified_once] using hr'
      rw [hafter] at hall
      simp only [fromFirstMark, List.flatMap_nil, List.length_nil, hnone] at hall ⊢
      omega
  | cons r rs =>
      have hsome : 0 < runs.countP isElement := by
        rw [List.countP_pos_iff]
        refine ⟨r, ?_, ?_⟩
        · have hmem : r ∈ runs.dropWhile fun r => !isClassified onceMark r := by
            rw [hafter]
            exact List.mem_cons_self
          exact List.dropWhile_subset _ hmem
        · have hhead := List.head?_dropWhile_not (fun r => !isClassified onceMark r) runs
          rw [hafter] at hhead
          simpa [isClassified_once] using hhead
      rw [hafter] at hall
      simp only [fromFirstMark, List.length_cons] at hall ⊢
      omega

/-! ## The terminator of `jud` -/

/-- Every store was at an index of at most 198, and the last cell is still the
terminator. -/
def KeepsFinsh (jud : WriteBuffer Int) : Prop :=
  jud.pos ≤ 199 ∧ jud.cells[199]? = some MORSE_FINSH

/-- The decision loop stores at indices of at most 198 and leaves a terminator if
and only if the elements, letter gaps and word gaps of the energy sequence come to
at most 199 symbols. -/
theorem decisionLoop_terminated_iff (m₀ n₀ : Int) (En : List Int) :
    (∃ s, decisionLoop morseProcessOnce m₀ n₀ En = some s ∧ KeepsFinsh s.jud) ↔
      symbolCount (onceRuns En) ≤ 199 := by
  have hrun := decisionLoop_once m₀ n₀ En
  rw [← length_onceSymbols]
  constructor
  · rintro ⟨s, hs, hpos, -⟩
    rw [hs, Option.map_some] at hrun
    split_ifs at hrun
    rw [Option.some.inj hrun] at hpos
    exact hpos
  · intro hlen
    rw [if_pos (Nat.le_succ_of_le hlen), Option.map_eq_some_iff] at hrun
    rcases hrun with ⟨s, hs, hjud⟩
    refine ⟨s, hs, ?_⟩
    rw [hjud]
    refine ⟨hlen, ?_⟩
    rw [WriteBuffer.holding_cells, List.getElem?_append_right hlen, List.getElem?_replicate]
    exact if_pos (by omega)

/-- One hundred letters `E`: a dot of ten frames each, seven frames apart. -/
def hundredDots : List Int :=
  ((List.range 100).flatMap fun _ => List.replicate 7 0 ++ List.replicate 10 2000000) ++ [0]

/-- The start symbol, one hundred dots and the gaps between them fill `jud`. -/
theorem decisionLoop_hundred_dots :
    ¬ ∃ s, decisionLoop morseProcessOnce 0 0 hundredDots = some s ∧ KeepsFinsh s.jud := by
  have hcount : (producedFrom morseProcessOnce hundredDots).length = 200 := by
    decide +kernel
  rintro ⟨s, hs, hpos, -⟩
  have hrun := decisionLoop_jud morseProcessOnce 0 0 hundredDots
  rw [hs, if_pos (Nat.le_of_eq hcount)] at hrun
  rw [Option.some.inj hrun, WriteBuffer.holding_pos, hcount] at hpos
  exact absurd hpos (by decide)

/-! ## The arrays of the decoder -/

/-- The symbols of an energy sequence are none, or open a group. -/
theorem onceSymbols_opens (En : List Int) :
    onceSymbols En = [] ∨ ∃ sep rest, onceSymbols En = sep :: rest ∧ Opens sep := by
  have hbefore : ∀ r ∈ (onceRuns En).takeWhile (fun r => !isClassified onceMark r),
      isClassified onceMark r = false := by
    intro r hr
    simpa using List.mem_takeWhile_imp hr
  unfold onceSymbols runLengthSymbols
  rcases unclassified_flatMap hbefore with hnil | ⟨tail, htail⟩
  · rw [hnil, List.nil_append]
    cases (onceRuns En).dropWhile fun r => !isClassified onceMark r with
    | nil => exact Or.inl rfl
    | cons r rs => exact Or.inr ⟨_, _, rfl, Or.inl rfl⟩
  · rw [htail]
    exact Or.inr ⟨_, _, rfl, Or.inr rfl⟩

/-- On the symbols of an energy sequence the decoder stays inside its arrays
exactly when no group is longer than `c` and the appended characters fit in
`code`. -/
theorem inverseTranslate_onceSymbols_isSome_iff {En : List Int}
    (hlen : (onceSymbols En).length ≤ 199) {jud : List Int}
    (hjud : jud = (WriteBuffer.holding MORSE_FINSH 200 (onceSymbols En)).cells) :
    (inverseTranslate jud).isSome ↔
      (∀ g ∈ groupsOf jud, g.length ≤ 7) ∧ ((groupsOf jud).flatMap groupChars).length ≤ 31 := by
  rw [WriteBuffer.holding_cells] at hjud
  rcases onceSymbols_opens En with hnil | ⟨sep, rest, hsymbols, hsep⟩
  · rw [hnil] at hjud
    obtain rfl : jud = List.replicate 200 MORSE_FINSH := hjud
    rw [inverseTranslate_zeros]
    have hgroups : groupsOf (List.replicate 200 MORSE_FINSH) = [[]] := by decide
    rw [hgroups]
    exact iff_of_true rfl (by decide)
  · have hlength : jud.length = 200 := by
      rw [hjud, List.length_append, List.length_replicate]
      omega
    have hfinsh : MORSE_FINSH ∈ jud := by
      rw [hjud]
      apply List.mem_append_right
      rw [List.mem_replicate]
      exact ⟨by omega, rfl⟩
    have hstart : jud.head? = some sep := by
      rw [hjud, hsymbols]
      rfl
    exact inverseTranslate_isSome_iff hlength hstart hsep hfinsh

/-- On every `jud` with at most 199 symbols that the decision loop writes,
`inverse_translate` stays inside its three arrays if and only if every group has
at most seven symbols and the nonempty groups, the signs without an `else` counted
twice, are at most 31. -/
theorem decisionLoop_decodable_iff (m₀ n₀ : Int) (En : List Int)
    (hlen : (onceSymbols En).length ≤ 199) :
    ∃ s, decisionLoop morseProcessOnce m₀ n₀ En = some s ∧
      ((inverseTranslate s.jud.cells).isSome ↔
        (∀ g ∈ groupsOf s.jud.cells, g.length ≤ 7) ∧
          ((groupsOf s.jud.cells).filter fun g => g ≠ []).length +
            ((groupsOf s.jud.cells).countP fun g => g ∈ unchainedSigns) ≤ 31) := by
  have hrun := decisionLoop_once m₀ n₀ En
  rw [if_pos (Nat.le_succ_of_le hlen), Option.map_eq_some_iff] at hrun
  rcases hrun with ⟨s, hs, hjud⟩
  refine ⟨s, hs, ?_⟩
  rw [← length_flatMap_groupChars]
  exact inverseTranslate_onceSymbols_isSome_iff hlen (congrArg WriteBuffer.cells hjud)

/-- The letters `A` and `E` and, as another word, `T`. -/
theorem decisionLoop_decodable_words :
    let En := frames [(2, 0), (10, 2000000), (3, 0), (40, 2000000), (10, 0), (20, 2000000),
      (30, 0), (36, 2000000), (4, 0)]
    ∃ s, decisionLoop morseProcessOnce 0 0 En = some s ∧
      ((inverseTranslate s.jud.cells).isSome ↔
        (∀ g ∈ groupsOf s.jud.cells, g.length ≤ 7) ∧
          ((groupsOf s.jud.cells).filter fun g => g ≠ []).length +
            ((groupsOf s.jud.cells).countP fun g => g ∈ unchainedSigns) ≤ 31) := by
  intro En
  have hlength : (onceSymbols En).length ≤ 199 := by
    rw [← producedFrom_once]
    decide
  exact decisionLoop_decodable_iff 0 0 En hlength

/-- Eight dots, one frame apart: a group that does not fit in `c`. -/
theorem decisionLoop_eight_dots :
    (onceSymbols ((List.replicate 8 (0 :: List.replicate 10 2000000)).flatten ++ [0])).length =
        9 ∧
      ∃ s, decisionLoop morseProcessOnce 0 0
          ((List.replicate 8 (0 :: List.replicate 10 2000000)).flatten ++ [0]) = some s ∧
        inverseTranslate s.jud.cells = none := by
  have hsymbols : producedFrom morseProcessOnce
      ((List.replicate 8 (0 :: List.replicate 10 2000000)).flatten ++ [0]) =
        MORSE_START :: List.replicate 8 MORSE_DIAN := by
    decide
  have hrun := decisionLoop_jud morseProcessOnce 0 0
    ((List.replicate 8 (0 :: List.replicate 10 2000000)).flatten ++ [0])
  rw [hsymbols, if_pos (by decide), Option.map_eq_some_iff] at hrun
  rcases hrun with ⟨s, hs, hjud⟩
  rw [← producedFrom_once, hsymbols]
  refine ⟨rfl, s, hs, ?_⟩
  rw [hjud]
  decide

end Ls2kMorse
