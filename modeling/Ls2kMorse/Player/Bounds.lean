import Ls2kMorse.Lib.Split
import Ls2kMorse.Player.Translate
import Mathlib.Algebra.Order.BigOperators.Group.List
import Mathlib.Algebra.Order.Ring.Nat

/-!
# What the encoder reads and writes

`translate` compares neither its write index with the size of `morse_code` nor
its read index with the size of a table, and it scans all 31 characters of its
array, whether a NUL stands before the end or not.  This module states for which
texts each of these bounds is kept.

Main results:

- Theorem `translate_keepsZero_iff`: the last cell of `morse_code` stays zero if
  and only if the typed characters have at most 199 symbols.
- Theorem `translate_inTables_iff`: no copy loop reads behind its table if and
  only if no character has a case.
- Theorem `translate_cString_iff`: when the bytes behind the NUL do not matter.
-/

namespace Ls2kMorse
namespace Player

open Lib

/-- The character that ends a string. -/
def NUL : Char := Char.ofNat 0

/-! ## The buffer of `morse_play_once` -/

/-- The characters that `fgets` takes from a stream: up to a line feed, and no
more than `n`. -/
def readLine : Nat → List Char → List Char
  | 0, _ => []
  | _ + 1, [] => []
  | n + 1, ch :: stdin => if ch = '\n' then [ch] else ch :: readLine n stdin

/-- `fgets(str, size, stdin)`: the characters and a NUL; at the end of the stream
`str` is left as it is. -/
def fgets (str : List Char) (size : Nat) (stdin : List Char) : List Char :=
  let line := readLine (size - 1) stdin
  if line = [] then str else line ++ NUL :: str.drop (line.length + 1)

/-- The array that `morse_play_once` passes to `translate`. -/
def playOnceBuffer (stdin : List Char) : List Char :=
  fgets (List.replicate 31 '~') 31 stdin

theorem length_readLine_le (n : Nat) (stdin : List Char) : (readLine n stdin).length ≤ n := by
  induction n generalizing stdin with
  | zero => exact Nat.le_refl 0
  | succ n ih =>
      cases stdin with
      | nil => exact Nat.zero_le _
      | cons ch stdin =>
          unfold readLine
          by_cases hline : ch = '\n'
          · simp [hline]
          · rw [if_neg hline, List.length_cons]
            exact Nat.succ_le_succ (ih stdin)

theorem length_playOnceBuffer (stdin : List Char) : (playOnceBuffer stdin).length = 31 := by
  have hle := length_readLine_le 30 stdin
  unfold playOnceBuffer fgets
  by_cases hnil : readLine (31 - 1) stdin = []
  · simp [hnil]
  · simp [hnil]
    omega

/-- Only the typed characters have symbols. -/
theorem flatMap_playOnceBuffer (stdin : List Char) :
    (playOnceBuffer stdin).flatMap symbolsOf = (readLine 30 stdin).flatMap symbolsOf := by
  have hfill : ∀ n, (List.replicate n '~').flatMap symbolsOf = [] := by
    intro n
    rw [List.flatMap_eq_nil_iff]
    intro ch hch
    rw [List.eq_of_mem_replicate hch]
    rfl
  have hnul : symbolsOf NUL = [] := rfl
  unfold playOnceBuffer fgets
  by_cases hnil : readLine (31 - 1) stdin = []
  · rw [if_pos hnil, hfill, hnil]
    rfl
  · rw [if_neg hnil, List.flatMap_append, List.flatMap_cons, hnul, List.drop_replicate, hfill,
      List.nil_append, List.append_nil]

/-! ## The end of `morse_code` -/

/-- Every store was at an index of at most 198, and the last cell is still zero. -/
def KeepsZero (morseCode : WriteBuffer UInt16) : Prop :=
  morseCode.pos ≤ 199 ∧ morseCode.cells[199]? = some 0

theorem keepsZero_holding {vs : List UInt16} (h : vs.length ≤ 199) :
    KeepsZero (WriteBuffer.holding 0 200 vs) := by
  refine ⟨h, ?_⟩
  rw [WriteBuffer.holding_cells, List.getElem?_append_right h, List.getElem?_replicate]
  exact if_pos (by omega)

/-- For every line typed at `morse_play_once`, `translate` stores at indices of at
most 198 and keeps a zero behind the symbols if and only if the tables of the
typed characters have at most 199 symbols together. -/
theorem translate_keepsZero_iff {past : Past} (hpast : past.ZeroTerminated)
    (stdin : List Char) :
    (∃ morseCode, translate past (playOnceBuffer stdin) = some morseCode ∧
        KeepsZero morseCode) ↔
      ((readLine 30 stdin).map fun ch => (symbolsOf ch).length).sum ≤ 199 := by
  rw [translate_eq hpast (length_playOnceBuffer stdin), flatMap_playOnceBuffer,
    ← List.length_flatMap]
  constructor
  · rintro ⟨morseCode, htranslate, hkeeps⟩
    split_ifs at htranslate
    rw [← Option.some.inj htranslate] at hkeeps
    exact hkeeps.1
  · intro h
    exact ⟨_, if_pos (Nat.le_succ_of_le h), keepsZero_holding h⟩

/-- The line `SOS`. -/
theorem translate_keepsZero_SOS :
    (∃ morseCode, translate (fun _ _ => some 0) (playOnceBuffer ['S', 'O', 'S', '\n']) =
        some morseCode ∧ KeepsZero morseCode) ↔
      ((readLine 30 ['S', 'O', 'S', '\n']).map fun ch => (symbolsOf ch).length).sum ≤ 199 :=
  translate_keepsZero_iff (fun _ => rfl) _

/-- Thirty dollar signs have 240 symbols. -/
theorem translate_dollars :
    readLine 30 (List.replicate 30 '$') = List.replicate 30 '$' ∧
      ¬ ∃ morseCode, translate (fun _ _ => some 0) (playOnceBuffer (List.replicate 30 '$')) =
        some morseCode ∧ KeepsZero morseCode := by
  constructor
  · decide
  · have hpast : Past.ZeroTerminated fun _ _ => some 0 := fun _ => rfl
    have hmany : ¬ ((readLine 30 (List.replicate 30 '$')).flatMap symbolsOf).length ≤ 200 := by
      decide +kernel
    rw [translate_eq hpast (length_playOnceBuffer _), flatMap_playOnceBuffer, if_neg hmany]
    rintro ⟨morseCode, htranslate, -⟩
    exact absurd htranslate (Option.some_ne_none morseCode).symm

/-! ## The end of the tables -/

/-- Reads outside a table are not allowed. -/
def tablesOnly : Past :=
  fun _ _ => none

/-- A copy loop always tests the halfword behind its table. -/
theorem copied_tablesOnly {ch : Char} {table : List UInt16} (h : caseTable ch = some table) :
    copied tablesOnly ch = none := by
  rcases caseTable_bounds h with ⟨hlen, hzero⟩
  obtain ⟨fuel, hfuel⟩ : ∃ f, 201 + 0 - table.length = f + 1 := ⟨200 - table.length, by omega⟩
  have hbehind : readTable (tablesOnly ch) table table.length = none := by
    simp [readTable, tablesOnly]
  unfold copied
  rw [h]
  simp only
  rw [haltedRun_table hzero (Nat.zero_le _) (by omega), hfuel, haltedRun, hbehind]
  rfl

/-- A text with a case reads behind a table. -/
theorem copiedText_tablesOnly {a : List Char} (h : ∃ ch ∈ a, caseTable ch ≠ none) :
    copiedText tablesOnly a = none := by
  induction a with
  | nil =>
      rcases h with ⟨ch, hch, -⟩
      exact absurd hch List.not_mem_nil
  | cons ch a ih =>
      rw [copiedText]
      cases hcase : caseTable ch with
      | some table =>
          rw [copied_tablesOnly hcase]
          rfl
      | none =>
          have hrest : ∃ ch' ∈ a, caseTable ch' ≠ none := by
            rcases h with ⟨ch', hch', hne⟩
            rcases List.mem_cons.mp hch' with rfl | hch'
            · exact absurd hcase hne
            · exact ⟨ch', hch', hne⟩
          rw [ih hrest]
          cases copied tablesOnly ch <;> rfl

/-- For an array whose symbols fit, `translate` reads inside the tables and leaves
the tables of its characters followed by zeros if and only if no character of the
array has a case. -/
theorem translate_inTables_iff {a : List Char} (ha : a.length = 31)
    (hfits : (a.flatMap symbolsOf).length ≤ 200) :
    (∃ morseCode, translate tablesOnly a = some morseCode ∧
        morseCode.cells = a.flatMap symbolsOf ++
          List.replicate (200 - (a.flatMap symbolsOf).length) 0) ↔
      ∀ ch ∈ a, caseTable ch = none := by
  constructor
  · rintro ⟨morseCode, htranslate, -⟩
    by_contra hcase
    simp only [not_forall] at hcase
    rcases hcase with ⟨ch, hch, hne⟩
    rw [translate_copied _ ha, copiedText_tablesOnly ⟨ch, hch, hne⟩] at htranslate
    exact absurd htranslate (Option.some_ne_none morseCode).symm
  · intro hnone
    have hcopied : copiedText tablesOnly a = some (a.flatMap symbolsOf) := by
      clear ha hfits
      induction a with
      | nil => rfl
      | cons ch a ih =>
          have hch := hnone ch List.mem_cons_self
          rw [copiedText, ih fun ch' hch' => hnone ch' (List.mem_cons_of_mem ch hch')]
          simp [copied, symbolsOf, hch]
    refine ⟨_, ?_, WriteBuffer.holding_cells 0 200 (a.flatMap symbolsOf)⟩
    rw [translate_copied _ ha, hcopied]
    exact if_pos hfits

/-- The filled array before anything is typed. -/
theorem translate_inTables_tildes :
    (∃ morseCode, translate tablesOnly (List.replicate 31 '~') = some morseCode ∧
        morseCode.cells = (List.replicate 31 '~').flatMap symbolsOf ++
          List.replicate (200 - ((List.replicate 31 '~').flatMap symbolsOf).length) 0) ↔
      ∀ ch ∈ List.replicate 31 '~', caseTable ch = none :=
  translate_inTables_iff (by decide) (by decide)

/-- A single `E`: the loop test reads the halfword behind its table. -/
theorem translate_inTables_E :
    (('E' :: List.replicate 30 '~').flatMap symbolsOf).length = 2 ∧
      translate tablesOnly ('E' :: List.replicate 30 '~') = none := by
  decide +kernel

/-! ## The bytes behind the NUL -/

/-- `translate` finishes on both arrays with the same `morse_code`. -/
def SameArray (past : Past) (a a' : List Char) : Prop :=
  ∃ morseCode morseCode', translate past a = some morseCode ∧
    translate past a' = some morseCode' ∧ morseCode.cells = morseCode'.cells

/-- The text can be copied, and what it copies fits in `morse_code`. -/
def Fits (past : Past) (a : List Char) : Prop :=
  ∃ vs, copiedText past a = some vs ∧ vs.length ≤ 200

theorem copiedText_append (past : Past) (s t : List Char) :
    copiedText past (s ++ t) =
      (copiedText past s).bind fun vs => (copiedText past t).map fun ws => vs ++ ws := by
  induction s with
  | nil => cases h : copiedText past t <;> simp [copiedText, h]
  | cons ch s ih =>
      rw [List.cons_append, copiedText, copiedText, ih]
      cases copied past ch with
      | none => rfl
      | some vs =>
          cases copiedText past s with
          | none => rfl
          | some rest =>
              cases copiedText past t with
              | none => rfl
              | some ws =>
                  simp only [Option.bind_eq_bind, Option.bind_some, Option.map_some]
                  rw [List.append_assoc]

/-- A NUL copies nothing. -/
theorem copiedText_append_NUL (past : Past) (s t : List Char) :
    copiedText past (s ++ NUL :: t) = copiedText past (s ++ t) := by
  have hnul : copied past NUL = some [] := rfl
  have hcons : copiedText past (NUL :: t) = copiedText past t := by
    rw [copiedText, hnul]
    cases copiedText past t <;> rfl
  rw [copiedText_append, copiedText_append, hcons]

theorem haltedRun_ne_zero {read : Nat → Option UInt16} {fuel k : Nat} {vs : List UInt16}
    (h : haltedRun read fuel k = some vs) : 0 ∉ vs := by
  induction fuel generalizing k vs with
  | zero => exact absurd h (Option.some_ne_none vs).symm
  | succ fuel ih =>
      rw [haltedRun] at h
      cases hread : read k with
      | none => simp [hread] at h
      | some v =>
          by_cases hv : v = 0
          · simp [hread, hv] at h
            simp [h]
          · simp only [hread, Option.bind_eq_bind, Option.bind_some, ne_eq, hv,
              not_false_eq_true, if_true, Option.bind_eq_some_iff, Option.some.injEq] at h
            rcases h with ⟨ws, hws, rfl⟩
            simp [ih hws, Ne.symm hv]

/-- No character copies a zero. -/
theorem copiedText_ne_zero {past : Past} {a : List Char} {vs : List UInt16}
    (h : copiedText past a = some vs) : 0 ∉ vs := by
  induction a generalizing vs with
  | nil =>
      rw [← Option.some.inj h]
      exact List.not_mem_nil
  | cons ch a ih =>
      simp only [copiedText, Option.bind_eq_bind, Option.bind_eq_some_iff,
        Option.some.injEq] at h
      rcases h with ⟨ws, hws, rest, hrest, rfl⟩
      have hfirst : 0 ∉ ws := by
        unfold copied at hws
        cases hcase : caseTable ch with
        | none =>
            simp only [hcase, Option.some.injEq] at hws
            simp [← hws]
        | some table =>
            simp only [hcase] at hws
            exact haltedRun_ne_zero hws
      intro hmem
      rcases List.mem_append.mp hmem with hmem | hmem
      · exact hfirst hmem
      · exact ih hrest hmem

/-- `translate` finishes exactly on the texts that fit. -/
theorem translate_eq_some_iff {past : Past} {a : List Char} (ha : a.length = 31)
    {morseCode : WriteBuffer UInt16} :
    translate past a = some morseCode ↔
      ∃ vs, copiedText past a = some vs ∧ vs.length ≤ 200 ∧
        morseCode = WriteBuffer.holding 0 200 vs := by
  rw [translate_copied past ha, Option.bind_eq_some_iff]
  apply exists_congr
  intro vs
  apply and_congr_right
  intro _
  by_cases hlen : vs.length ≤ 200
  · simp [hlen, eq_comm]
  · simp [hlen]

/-- The cells of `morse_code` determine what was copied. -/
theorem sameArray_iff {past : Past} {a a' : List Char} (ha : a.length = 31)
    (ha' : a'.length = 31) :
    SameArray past a a' ↔ Fits past a ∧ copiedText past a = copiedText past a' := by
  unfold SameArray Fits
  constructor
  · rintro ⟨morseCode, morseCode', htranslate, htranslate', hcells⟩
    rcases (translate_eq_some_iff ha).mp htranslate with ⟨vs, hvs, hlen, rfl⟩
    rcases (translate_eq_some_iff ha').mp htranslate' with ⟨vs', hvs', hlen', rfl⟩
    have hsame : vs = vs' := WriteBuffer.holding_cells_injective (copiedText_ne_zero hvs)
      (copiedText_ne_zero hvs') hcells
    exact ⟨⟨vs, hvs, hlen⟩, by rw [hvs, hvs', hsame]⟩
  · rintro ⟨⟨vs, hvs, hlen⟩, hsame⟩
    have htranslate := (translate_eq_some_iff ha).mpr ⟨vs, hvs, hlen, rfl⟩
    have htranslate' := (translate_eq_some_iff ha').mpr ⟨vs, hsame ▸ hvs, hlen, rfl⟩
    exact ⟨_, _, htranslate, htranslate', rfl⟩

/-- Behind a common text that fits, the tails have to copy the same. -/
theorem copiedText_append_inj {past : Past} {s t t' : List Char} (h : Fits past (s ++ t)) :
    copiedText past (s ++ t) = copiedText past (s ++ t') ↔
      copiedText past t = copiedText past t' := by
  rcases h with ⟨vs, hvs, -⟩
  rw [copiedText_append] at hvs
  rw [copiedText_append, copiedText_append]
  cases hs : copiedText past s with
  | none => simp [hs] at hvs
  | some us =>
      cases ht : copiedText past t with
      | none => simp [hs, ht] at hvs
      | some ws => cases ht' : copiedText past t' <;> simp

/-- The tables that a text copies when its copy loops stop behind them. -/
def tablesOf (a : List Char) : List (List UInt16) :=
  a.filterMap caseTable

theorem flatten_tablesOf (a : List Char) : (tablesOf a).flatten = a.flatMap symbolsOf := by
  induction a with
  | nil => rfl
  | cons ch a ih =>
      unfold tablesOf at ih ⊢
      rw [List.flatMap_cons, ← ih]
      cases hcase : caseTable ch with
      | none => simp [hcase, symbolsOf]
      | some table => simp [hcase, symbolsOf]

/-- Every table ends with its only `MORSE_ZIFU_KONG`. -/
theorem switchCases_terminated : ∀ c ∈ switchCases,
    MORSE_ZIFU_KONG ∉ c.2.dropLast ∧ c.2 = c.2.dropLast ++ [MORSE_ZIFU_KONG] := by
  decide

theorem tablesOf_terminated {a : List Char} {table : List UInt16} (h : table ∈ tablesOf a) :
    Terminated MORSE_ZIFU_KONG table := by
  rcases List.mem_filterMap.mp h with ⟨ch, -, hcase⟩
  rcases List.lookup_eq_some_iff.mp hcase with ⟨l₁, l₂, hmem, -⟩
  have hin : (ch, table) ∈ switchCases := by
    rw [hmem]
    exact List.mem_append_right l₁ List.mem_cons_self
  exact ⟨table.dropLast, switchCases_terminated _ hin⟩

/-- Texts with the same symbols consist of the same tables. -/
theorem flatMap_symbolsOf_eq_iff (t t' : List Char) :
    t.flatMap symbolsOf = t'.flatMap symbolsOf ↔ tablesOf t = tablesOf t' := by
  rw [← flatten_tablesOf, ← flatten_tablesOf]
  constructor
  · exact flatten_terminated_injective (fun _ h => tablesOf_terminated h)
      (fun _ h => tablesOf_terminated h)
  · exact congrArg List.flatten

/-- For two arrays that are equal up to and including a NUL, `translate` leaves the
same `morse_code` if and only if the text fits and the bytes behind the NUL copy
the same; when the copy loops stop behind their tables, this says that the text has
at most 200 symbols and that these bytes have the same tables in the same order. -/
theorem translate_cString_iff (past : Past) {s t t' : List Char}
    (ha : (s ++ NUL :: t).length = 31) (ha' : (s ++ NUL :: t').length = 31) :
    (SameArray past (s ++ NUL :: t) (s ++ NUL :: t') ↔
        Fits past (s ++ t) ∧ copiedText past t = copiedText past t') ∧
      (past.ZeroTerminated →
        (Fits past (s ++ t) ∧ copiedText past t = copiedText past t' ↔
          ((s ++ t).flatMap symbolsOf).length ≤ 200 ∧ tablesOf t = tablesOf t')) := by
  constructor
  · rw [sameArray_iff ha ha', Fits, copiedText_append_NUL, copiedText_append_NUL]
    exact and_congr_right copiedText_append_inj
  · intro hpast
    unfold Fits
    simp only [copiedText_eq hpast, Option.some.injEq]
    rw [flatMap_symbolsOf_eq_iff]
    simp

/-- The demonstration text with two tails of bytes without a case. -/
theorem translate_cString_demonstration :
    (SameArray (fun _ _ => some 0) ("WO AI LUO SHAN JI HU REN".toList ++ NUL :: "~~~~~~".toList)
        ("WO AI LUO SHAN JI HU REN".toList ++ NUL :: "######".toList) ↔
        Fits (fun _ _ => some 0) ("WO AI LUO SHAN JI HU REN".toList ++ "~~~~~~".toList) ∧
          copiedText (fun _ _ => some 0) "~~~~~~".toList =
            copiedText (fun _ _ => some 0) "######".toList) ∧
      (Past.ZeroTerminated (fun _ _ => some 0) →
        (Fits (fun _ _ => some 0) ("WO AI LUO SHAN JI HU REN".toList ++ "~~~~~~".toList) ∧
            copiedText (fun _ _ => some 0) "~~~~~~".toList =
              copiedText (fun _ _ => some 0) "######".toList ↔
          (("WO AI LUO SHAN JI HU REN".toList ++ "~~~~~~".toList).flatMap symbolsOf).length ≤ 200 ∧
            tablesOf "~~~~~~".toList = tablesOf "######".toList)) :=
  translate_cString_iff _ (by decide) (by decide)

/-- Six letters behind the NUL of the demonstration text are played, too. -/
theorem translate_cString_letters :
    ¬ SameArray (fun _ _ => some 0) ("WO AI LUO SHAN JI HU REN".toList ++ NUL :: "~~~~~~".toList)
      ("WO AI LUO SHAN JI HU REN".toList ++ NUL :: "LAKERS".toList) := by
  have hpast : Past.ZeroTerminated fun _ _ => some 0 := fun _ => rfl
  rw [sameArray_iff (by decide) (by decide), copiedText_eq hpast, copiedText_eq hpast]
  rintro ⟨-, hsame⟩
  have hlen := congrArg List.length (Option.some.inj hsame)
  revert hlen
  decide

end Player
end Ls2kMorse
