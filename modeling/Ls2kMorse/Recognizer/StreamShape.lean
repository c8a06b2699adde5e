import Ls2kMorse.Recognizer.Segmentation
import Ls2kMorse.Recognizer.InverseTranslate

/-!
# Shape of the recognised stream

The group decoder expects `MORSE_START` in front of the first element.  The
decision loop guards the elements with the flag `st`, but it writes separators
whether data has started or not.  A separator therefore comes first when two
bursts of unclassifiable length, or such a burst and the first real mark, are
more than six frames apart.

Main results:

- Theorem `joinGroups_of_runs`: behind the start symbol the stream is a sequence
  of groups, each of elements only or a single `MORSE_CI_KONG`.
- Theorem `decisionLoop_wellShaped_iff`: the stream has the expected shape if and
  only if no gap of more than six frames precedes the first classified mark.
-/

namespace Ls2kMorse

open Lib Lib.Hysteresis

/-! ## Shape and condition -/

/-- A group of dots and dashes only. -/
def MarksOnly (g : List Int) : Prop :=
  ∀ x ∈ g, x = MORSE_DIAN ∨ x = MORSE_HUA

/-- The stream is empty, or it begins with its only `MORSE_START`, an element
follows, the rest up to the zeros is read as groups, and every group that holds
an element consists of elements only. -/
def WellShaped (jud : List Int) : Prop :=
  jud = List.replicate 200 MORSE_FINSH ∨
    ∃ x rest zeros, jud = MORSE_START :: x :: rest ∧ (x = MORSE_DIAN ∨ x = MORSE_HUA) ∧
      MORSE_START ∉ x :: rest ∧
      jud = MORSE_START :: (joinGroups (groupsOf jud) ++ List.replicate zeros MORSE_FINSH) ∧
      ∀ g ∈ groupsOf jud, MORSE_DIAN ∈ g ∨ MORSE_HUA ∈ g → MarksOnly g

/-- No gap of more than six frames precedes the first mark of 10 to 49 frames,
or any gap at all is short when there is no such mark. -/
def QuietStart (En : List Int) : Prop :=
  ∀ L, Run.gap L ∈ (onceRuns En).takeWhile (fun r => !isClassified onceMark r) → L ≤ 6

/-! ## Symbols of single runs -/

/-- A mark symbol is a dot or a dash. -/
theorem onceMark_cases {H : Nat} {x : Int} (h : onceMark H = some x) :
    x = MORSE_DIAN ∨ x = MORSE_HUA := by
  unfold onceMark at h
  split_ifs at h
  · exact Or.inl (Option.some.inj h).symm
  · exact Or.inr (Option.some.inj h).symm

/-- A gap of at most six frames has no symbol. -/
theorem onceGap_eq_nil_iff (L : Nat) : onceGap L = [] ↔ L ≤ 6 := by
  unfold onceGap
  split_ifs with hzifu hci
  · simp only [false_iff]
    omega
  · simp only [false_iff]
    omega
  · simp only [true_iff]
    omega

/-- A gap has no separator, one separator, or the word triple. -/
theorem onceGap_cases (L : Nat) :
    onceGap L = [] ∨ onceGap L = [MORSE_ZIFU_KONG] ∨
      onceGap L = [MORSE_ZIFU_KONG, MORSE_CI_KONG, MORSE_ZIFU_KONG] := by
  unfold onceGap
  split_ifs <;> simp

/-- Before the first classified mark only gaps have symbols, and these begin with
a separator. -/
theorem unclassified_symbols {r : Run} (h : isClassified onceMark r = false) :
    runSymbols onceMark onceGap r = [] ∨
      ∃ tail, runSymbols onceMark onceGap r = MORSE_ZIFU_KONG :: tail := by
  cases r with
  | mark H =>
      left
      simpa [isClassified, runSymbols] using h
  | gap L =>
      rcases onceGap_cases L with hnil | hone | htriple
      · exact Or.inl hnil
      · exact Or.inr ⟨_, hone⟩
      · exact Or.inr ⟨_, htriple⟩

/-! ## The part before the first element -/

/-- The symbols in front of the first classified mark are none, or begin with a
separator. -/
theorem unclassified_flatMap {runs : List Run}
    (h : ∀ r ∈ runs, isClassified onceMark r = false) :
    runs.flatMap (runSymbols onceMark onceGap) = [] ∨
      ∃ tail, runs.flatMap (runSymbols onceMark onceGap) = MORSE_ZIFU_KONG :: tail := by
  induction runs with
  | nil => exact Or.inl rfl
  | cons r rs ih =>
      have hrs := ih fun r' hr' => h r' (List.mem_cons_of_mem r hr')
      rw [List.flatMap_cons]
      rcases unclassified_symbols (h r List.mem_cons_self) with hnil | ⟨tail, htail⟩
      · simpa [hnil] using hrs
      · exact Or.inr ⟨tail ++ _, by rw [htail]; rfl⟩

/-- There are no symbols in front of the first classified mark exactly when all
gaps there are short. -/
theorem unclassified_flatMap_eq_nil_iff {runs : List Run}
    (h : ∀ r ∈ runs, isClassified onceMark r = false) :
    runs.flatMap (runSymbols onceMark onceGap) = [] ↔ ∀ L, Run.gap L ∈ runs → L ≤ 6 := by
  rw [List.flatMap_eq_nil_iff]
  constructor
  · intro hall L hL
    exact (onceGap_eq_nil_iff L).mp (hall _ hL)
  · intro hgaps r hr
    cases r with
    | mark H => simpa [isClassified, runSymbols] using h _ hr
    | gap L => exact (onceGap_eq_nil_iff L).mpr (hgaps L hr)

/-! ## The part from the first element on -/

/-- A group in the stream: elements only, or a single `MORSE_CI_KONG`. -/
def StreamGroup (g : List Int) : Prop :=
  MarksOnly g ∨ g = [MORSE_CI_KONG]

/-- Runs translate into groups; the first of them holds elements only, so that
further elements may be put in front of it. -/
theorem joinGroups_of_runs (runs : List Run) :
    ∃ g gs, runs.flatMap (runSymbols onceMark onceGap) = joinGroups (g :: gs) ∧
      MarksOnly g ∧ ∀ g' ∈ gs, StreamGroup g' := by
  have hempty : MarksOnly [] := fun x hx => absurd hx List.not_mem_nil
  induction runs with
  | nil => exact ⟨[], [], rfl, hempty, fun g' hg' => absurd hg' List.not_mem_nil⟩
  | cons r rs ih =>
      rcases ih with ⟨g, gs, hjoin, hg, hgs⟩
      have htail : ∀ g' ∈ g :: gs, StreamGroup g' := by
        intro g' hg'
        rcases List.mem_cons.mp hg' with rfl | hg'
        · exact Or.inl hg
        · exact hgs g' hg'
      rw [List.flatMap_cons, hjoin]
      cases r with
      | mark H =>
          cases hmark : onceMark H with
          | none => exact ⟨g, gs, by simp [runSymbols, hmark], hg, hgs⟩
          | some x =>
              refine ⟨x :: g, gs, by simp [runSymbols, hmark, joinGroups_cons], ?_, hgs⟩
              intro y hy
              rcases List.mem_cons.mp hy with rfl | hy
              · exact onceMark_cases hmark
              · exact hg y hy
      | gap L =>
          rcases onceGap_cases L with hnil | hone | htriple
          · exact ⟨g, gs, by simp [runSymbols, hnil], hg, hgs⟩
          · exact ⟨[], g :: gs, by simp [runSymbols, hone, joinGroups_cons], hempty, htail⟩
          · refine ⟨[], [MORSE_CI_KONG] :: g :: gs,
              by simp [runSymbols, htriple, joinGroups_cons], hempty, ?_⟩
            intro g' hg'
            rcases List.mem_cons.mp hg' with rfl | hg'
            · exact Or.inr rfl
            · exact htail g' hg'

/-- The symbols of a stream group neither separate groups nor end the stream, and
are no start symbol. -/
theorem StreamGroup.inGroup {g : List Int} (hg : StreamGroup g) :
    ∀ x ∈ g, InGroup x ∧ x ≠ MORSE_START := by
  intro x hx
  rcases hg with hmarks | rfl
  · rcases hmarks x hx with rfl | rfl
    · exact ⟨⟨by decide, by decide⟩, by decide⟩
    · exact ⟨⟨by decide, by decide⟩, by decide⟩
  · rcases List.mem_singleton.mp hx with rfl
    exact ⟨⟨by decide, by decide⟩, by decide⟩

/-- A stream group that holds an element consists of elements only. -/
theorem StreamGroup.marksOnly {g : List Int} (hg : StreamGroup g)
    (hmark : MORSE_DIAN ∈ g ∨ MORSE_HUA ∈ g) : MarksOnly g := by
  rcases hg with hmarks | rfl
  · exact hmarks
  · exact absurd hmark (by decide)

/-- The start symbol, an element, groups and zeros make a well-shaped stream. -/
theorem wellShaped_of_groups {x : Int} {g : List Int} {gs : List (List Int)} {zeros : Nat}
    (hx : MarksOnly (x :: g)) (hgs : ∀ g' ∈ gs, StreamGroup g') :
    WellShaped (MORSE_START :: (joinGroups ((x :: g) :: gs) ++
      List.replicate (zeros + 1) MORSE_FINSH)) := by
  have hall : ∀ g' ∈ (x :: g) :: gs, StreamGroup g' := by
    intro g' hg'
    rcases List.mem_cons.mp hg' with rfl | hg'
    · exact Or.inl hx
    · exact hgs g' hg'
  have hgroups : groupsOf (MORSE_START :: (joinGroups ((x :: g) :: gs) ++
      List.replicate (zeros + 1) MORSE_FINSH)) = (x :: g) :: gs :=
    groupsOf_eq (List.cons_ne_nil _ _) (fun g' hg' y hy => ((hall g' hg').inGroup y hy).1) _
  have hstart : MORSE_START ∉ joinGroups ((x :: g) :: gs) ++
      List.replicate (zeros + 1) MORSE_FINSH := by
    intro hmem
    rw [joinGroups_cons, List.mem_append, List.mem_append, List.mem_flatMap] at hmem
    rcases hmem with (hmem | ⟨g', hg', hmem⟩) | hmem
    · exact ((hall _ List.mem_cons_self).inGroup _ hmem).2 rfl
    · rcases List.mem_cons.mp hmem with h | hmem
      · exact absurd h (by decide)
      · exact ((hall g' (List.mem_cons_of_mem _ hg')).inGroup _ hmem).2 rfl
    · exact absurd (List.eq_of_mem_replicate hmem) (by decide)
  right
  refine ⟨x, g ++ gs.flatMap (fun g' => MORSE_ZIFU_KONG :: g') ++
    List.replicate (zeros + 1) MORSE_FINSH, zeros + 1, ?_, hx x List.mem_cons_self, ?_, ?_, ?_⟩
  · rw [joinGroups_cons]
    rfl
  · rw [joinGroups_cons] at hstart
    exact hstart
  · rw [hgroups]
  · rw [hgroups]
    exact fun g' hg' hmark => (hall g' hg').marksOnly hmark

/-! ## The law -/

/-- A stream that begins with a separator does not have the expected shape. -/
theorem not_wellShaped_of_separator (rest : List Int) :
    ¬ WellShaped (MORSE_ZIFU_KONG :: rest) := by
  intro hshape
  rcases hshape with hzero | ⟨x, rest', zeros, hstart, -⟩
  · rw [List.replicate_succ] at hzero
    exact absurd (List.cons.inj hzero).1 (by decide)
  · exact absurd (List.cons.inj hstart).1 (by decide)

/-- A classified first run is one element. -/
theorem runSymbols_of_classified {r : Run} (hclass : isClassified onceMark r = true) :
    ∃ x, runSymbols onceMark onceGap r = [x] ∧ (x = MORSE_DIAN ∨ x = MORSE_HUA) := by
  cases r with
  | gap L => exact absurd hclass (by simp [isClassified])
  | mark H =>
      rcases Option.isSome_iff_exists.mp hclass with ⟨x, hx⟩
      exact ⟨x, by simp [runSymbols, hx], onceMark_cases hx⟩

/-- Without symbols in front of the first classified mark, the stream is empty, or
the start symbol and groups of which the first one begins with an element. -/
theorem onceSymbols_of_quiet {En : List Int}
    (hnil : ((onceRuns En).takeWhile fun r => !isClassified onceMark r).flatMap
      (runSymbols onceMark onceGap) = []) :
    onceSymbols En = [] ∨ ∃ x g gs, onceSymbols En = MORSE_START :: joinGroups ((x :: g) :: gs) ∧
      MarksOnly (x :: g) ∧ ∀ g' ∈ gs, StreamGroup g' := by
  have hsymbols : onceSymbols En = fromFirstMark onceMark onceGap
      ((onceRuns En).dropWhile fun r => !isClassified onceMark r) := by
    unfold onceSymbols runLengthSymbols
    rw [hnil, List.nil_append]
  cases hafter : (onceRuns En).dropWhile fun r => !isClassified onceMark r with
  | nil =>
      left
      rw [hsymbols, hafter]
      rfl
  | cons r rs =>
      right
      have hclass : isClassified onceMark r = true := by
        have hhead := List.head?_dropWhile_not (fun r => !isClassified onceMark r) (onceRuns En)
        rw [hafter] at hhead
        simpa using hhead
      rcases runSymbols_of_classified hclass with ⟨x, hx, hmark⟩
      rcases joinGroups_of_runs rs with ⟨g, gs, hjoin, hg, hgs⟩
      refine ⟨x, g, gs, ?_, ?_, hgs⟩
      · rw [hsymbols, hafter, fromFirstMark, List.flatMap_cons, hx, hjoin, joinGroups_cons,
          joinGroups_cons]
        rfl
      · intro y hy
        rcases List.mem_cons.mp hy with rfl | hy
        · exact hmark
        · exact hg y hy

/-- The stream of an energy sequence has the expected shape exactly when it has
a quiet start. -/
theorem wellShaped_onceSymbols_iff (En : List Int) (hlen : (onceSymbols En).length ≤ 199) :
    WellShaped (WriteBuffer.holding MORSE_FINSH 200 (onceSymbols En)).cells ↔
      QuietStart En := by
  have hzeros : 200 - (onceSymbols En).length = (199 - (onceSymbols En).length) + 1 := by omega
  have hbefore : ∀ r ∈ (onceRuns En).takeWhile (fun r => !isClassified onceMark r),
      isClassified onceMark r = false := by
    intro r hr
    simpa using List.mem_takeWhile_imp hr
  have hquiet := unclassified_flatMap_eq_nil_iff hbefore
  unfold QuietStart
  rw [← hquiet, WriteBuffer.holding_cells, hzeros]
  generalize hn : 199 - (onceSymbols En).length = n
  constructor
  · -- a separator in front would be the first symbol of the stream
    intro hshape
    rcases unclassified_flatMap hbefore with hnil | ⟨tail, htail⟩
    · exact hnil
    · have hhead : ∃ rest, onceSymbols En = MORSE_ZIFU_KONG :: rest := by
        unfold onceSymbols runLengthSymbols
        rw [htail]
        exact ⟨_, rfl⟩
      rcases hhead with ⟨rest, hrest⟩
      rw [hrest, List.cons_append] at hshape
      exact absurd hshape (not_wellShaped_of_separator _)
  · intro hnil
    rcases onceSymbols_of_quiet hnil with hempty | ⟨x, g, gs, hstream, hx, hgs⟩
    · left
      rw [hempty] at hn ⊢
      rw [← hn]
      rfl
    · rw [hstream, List.cons_append]
      exact wellShaped_of_groups hx hgs

/-- The symbol list that `morse_process_once_thread` builds has the expected
shape if and only if no gap of more than six frames precedes the first mark of
10 to 49 frames. -/
theorem decisionLoop_wellShaped_iff (m₀ n₀ : Int) (En : List Int)
    (hlen : (onceSymbols En).length ≤ 199) :
    ∃ s, decisionLoop morseProcessOnce m₀ n₀ En = some s ∧
      (WellShaped s.jud.cells ↔ QuietStart En) := by
  have hrun := decisionLoop_once m₀ n₀ En
  rw [if_pos (Nat.le_succ_of_le hlen), Option.map_eq_some_iff] at hrun
  rcases hrun with ⟨s, hs, hjud⟩
  refine ⟨s, hs, ?_⟩
  rw [hjud]
  exact wellShaped_onceSymbols_iff En hlen

/-- The letters `A` and `E` and, as another word, `T`. -/
theorem decisionLoop_wellShaped_words :
    let En := frames [(2, 0), (10, 2000000), (3, 0), (40, 2000000), (10, 0), (20, 2000000),
      (30, 0), (36, 2000000), (4, 0)]
    ∃ s, decisionLoop morseProcessOnce 0 0 En = some s ∧
      (WellShaped s.jud.cells ↔ QuietStart En) := by
  intro En
  have hlength : (onceSymbols En).length ≤ 199 := by
    rw [← producedFrom_once]
    decide
  exact decisionLoop_wellShaped_iff 0 0 En hlength

/-- A burst of one frame, seven silent frames and a dot: the separator comes
before the start symbol. -/
theorem decisionLoop_burst_first :
    ∃ s, decisionLoop morseProcessOnce 0 0
        (2000000 :: List.replicate 7 0 ++ List.replicate 10 2000000 ++ [0]) = some s ∧
      s.jud.cells = [MORSE_ZIFU_KONG, MORSE_START, MORSE_DIAN] ++
        List.replicate 197 MORSE_FINSH ∧
      ¬ WellShaped s.jud.cells := by
  have hsymbols : producedFrom morseProcessOnce
      (2000000 :: List.replicate 7 0 ++ List.replicate 10 2000000 ++ [0]) =
        [MORSE_ZIFU_KONG, MORSE_START, MORSE_DIAN] := by
    decide
  have hrun := decisionLoop_jud morseProcessOnce 0 0
    (2000000 :: List.replicate 7 0 ++ List.replicate 10 2000000 ++ [0])
  rw [hsymbols, if_pos (by decide), Option.map_eq_some_iff] at hrun
  rcases hrun with ⟨s, hs, hjud⟩
  have hcells : s.jud.cells = [MORSE_ZIFU_KONG, MORSE_START, MORSE_DIAN] ++
      List.replicate 197 MORSE_FINSH := by
    rw [hjud]
    rfl
  refine ⟨s, hs, hcells, ?_⟩
  rw [hcells]
  rintro (hzero | ⟨x, rest, zeros, hstart, -⟩)
  · exact absurd (congrArg List.head? hzero) (by decide)
  · exact absurd (List.cons.inj hstart).1 (by decide)

end Ls2kMorse
