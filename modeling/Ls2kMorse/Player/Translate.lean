import Ls2kMorse.Lib.WriteBuffer
import Mathlib.Data.List.Basic
import Mathlib.Tactic.Common

/-!
# The encoder of the player

`translate` walks over a 31-character array and copies, for each character that
has a case, a table of 16-bit symbols into `morse_code[200]`.  The tables end
with their separator and not with a zero, while every copy loop runs until it
reads a zero: what lies behind a table decides where its loop stops.  The model
takes these halfwords as a parameter.

Main results:

- Theorem `translate_copied`: whatever lies behind the tables, `translate` writes
  what the copy loops of its characters copy, one after the other.
- Theorem `translate_eq`: with a zero behind every table, these are the tables of
  the characters.
-/

namespace Ls2kMorse
namespace Player

open Lib

/-! ## Symbols and tables of `morse_code.h` -/

/-- The symbol of a dot. -/
def MORSE_DIAN : UInt16 := 100

/-- The symbol of a dash. -/
def MORSE_HUA : UInt16 := 300

/-- The symbol of the gap between two characters. -/
def MORSE_ZIFU_KONG : UInt16 := 3000

/-- The symbol of the gap between two words. -/
def MORSE_CI_KONG : UInt16 := 7000

-- letters

/-- The blank: a word gap and a separator. -/
def morseKong : List UInt16 := [MORSE_CI_KONG, MORSE_ZIFU_KONG]
def morseA : List UInt16 := [MORSE_DIAN, MORSE_HUA, MORSE_ZIFU_KONG]
def morseB : List UInt16 := [MORSE_HUA, MORSE_DIAN, MORSE_DIAN, MORSE_DIAN, MORSE_ZIFU_KONG]
def morseC : List UInt16 := [MORSE_HUA, MORSE_DIAN, MORSE_HUA, MORSE_DIAN, MORSE_ZIFU_KONG]
def morseD : List UInt16 := [MORSE_HUA, MORSE_DIAN, MORSE_DIAN, MORSE_ZIFU_KONG]
def morseE : List UInt16 := [MORSE_DIAN, MORSE_ZIFU_KONG]
def morseF : List UInt16 := [MORSE_DIAN, MORSE_DIAN, MORSE_HUA, MORSE_DIAN, MORSE_ZIFU_KONG]
def morseG : List UInt16 := [MORSE_HUA, MORSE_HUA, MORSE_DIAN, MORSE_ZIFU_KONG]
def morseH : List UInt16 := [MORSE_DIAN, MORSE_DIAN, MORSE_DIAN, MORSE_DIAN, MORSE_ZIFU_KONG]
def morseI : List UInt16 := [MORSE_DIAN, MORSE_DIAN, MORSE_ZIFU_KONG]
def morseJ : List UInt16 := [MORSE_DIAN, MORSE_HUA, MORSE_HUA, MORSE_HUA, MORSE_ZIFU_KONG]
def morseK : List UInt16 := [MORSE_HUA, MORSE_DIAN, MORSE_HUA, MORSE_ZIFU_KONG]
def morseL : List UInt16 := [MORSE_DIAN, MORSE_HUA, MORSE_DIAN, MORSE_DIAN, MORSE_ZIFU_KONG]
def morseM : List UInt16 := [MORSE_HUA, MORSE_HUA, MORSE_ZIFU_KONG]
def morseN : List UInt16 := [MORSE_HUA, MORSE_DIAN, MORSE_ZIFU_KONG]
def morseO : List UInt16 := [MORSE_HUA, MORSE_HUA, MORSE_HUA, MORSE_ZIFU_KONG]
def morseP : List UInt16 := [MORSE_DIAN, MORSE_HUA, MORSE_HUA, MORSE_DIAN, MORSE_ZIFU_KONG]
def morseQ : List UInt16 := [MORSE_HUA, MORSE_HUA, MORSE_DIAN, MORSE_HUA, MORSE_ZIFU_KONG]
def morseR : List UInt16 := [MORSE_DIAN, MORSE_HUA, MORSE_DIAN, MORSE_ZIFU_KONG]
def morseS : List UInt16 := [MORSE_DIAN, MORSE_DIAN, MORSE_DIAN, MORSE_ZIFU_KONG]
def morseT : List UInt16 := [MORSE_HUA, MORSE_ZIFU_KONG]
def morseU : List UInt16 := [MORSE_DIAN, MORSE_DIAN, MORSE_HUA, MORSE_ZIFU_KONG]
def morseV : List UInt16 := [MORSE_DIAN, MORSE_DIAN, MORSE_DIAN, MORSE_HUA, MORSE_ZIFU_KONG]
def morseW : List UInt16 := [MORSE_DIAN, MORSE_HUA, MORSE_HUA, MORSE_ZIFU_KONG]
def morseX : List UInt16 := [MORSE_HUA, MORSE_DIAN, MORSE_DIAN, MORSE_HUA, MORSE_ZIFU_KONG]
def morseY : List UInt16 := [MORSE_HUA, MORSE_DIAN, MORSE_HUA, MORSE_HUA, MORSE_ZIFU_KONG]
def morseZ : List UInt16 := [MORSE_HUA, MORSE_HUA, MORSE_DIAN, MORSE_DIAN, MORSE_ZIFU_KONG]

-- digits
def morse0 : List UInt16 := [MORSE_HUA, MORSE_HUA, MORSE_HUA, MORSE_HUA, MORSE_HUA, MORSE_ZIFU_KONG]
def morse1 : List UInt16 :=
  [MORSE_DIAN, MORSE_HUA, MORSE_HUA, MORSE_HUA, MORSE_HUA, MORSE_ZIFU_KONG]
def morse2 : List UInt16 :=
  [MORSE_DIAN, MORSE_DIAN, MORSE_HUA, MORSE_HUA, MORSE_HUA, MORSE_ZIFU_KONG]
def morse3 : List UInt16 :=
  [MORSE_DIAN, MORSE_DIAN, MORSE_DIAN, MORSE_HUA, MORSE_HUA, MORSE_ZIFU_KONG]
def morse4 : List UInt16 :=
  [MORSE_DIAN, MORSE_DIAN, MORSE_DIAN, MORSE_DIAN, MORSE_HUA, MORSE_ZIFU_KONG]
def morse5 : List UInt16 :=
  [MORSE_DIAN, MORSE_DIAN, MORSE_DIAN, MORSE_DIAN, MORSE_DIAN, MORSE_ZIFU_KONG]
def morse6 : List UInt16 :=
  [MORSE_HUA, MORSE_DIAN, MORSE_DIAN, MORSE_DIAN, MORSE_DIAN, MORSE_ZIFU_KONG]
def morse7 : List UInt16 :=
  [MORSE_HUA, MORSE_HUA, MORSE_DIAN, MORSE_DIAN, MORSE_DIAN, MORSE_ZIFU_KONG]
def morse8 : List UInt16 :=
  [MORSE_HUA, MORSE_HUA, MORSE_HUA, MORSE_DIAN, MORSE_DIAN, MORSE_ZIFU_KONG]
def morse9 : List UInt16 :=
  [MORSE_HUA, MORSE_HUA, MORSE_HUA, MORSE_HUA, MORSE_DIAN, MORSE_ZIFU_KONG]

-- signs

/-- The sign `.`. -/
def morseDian : List UInt16 :=
  [MORSE_DIAN, MORSE_HUA, MORSE_DIAN, MORSE_HUA, MORSE_DIAN, MORSE_HUA, MORSE_ZIFU_KONG]

/-- The sign `:`. -/
def morseMao : List UInt16 :=
  [MORSE_HUA, MORSE_HUA, MORSE_HUA, MORSE_DIAN, MORSE_DIAN, MORSE_DIAN, MORSE_ZIFU_KONG]

/-- The sign `,`. -/
def morseDou : List UInt16 :=
  [MORSE_HUA, MORSE_HUA, MORSE_DIAN, MORSE_DIAN, MORSE_HUA, MORSE_HUA, MORSE_ZIFU_KONG]

/-- The sign `;`. -/
def morseFen : List UInt16 :=
  [MORSE_HUA, MORSE_DIAN, MORSE_HUA, MORSE_DIAN, MORSE_HUA, MORSE_DIAN, MORSE_ZIFU_KONG]

/-- The sign `?`. -/
def morseWen : List UInt16 :=
  [MORSE_DIAN, MORSE_DIAN, MORSE_HUA, MORSE_HUA, MORSE_DIAN, MORSE_DIAN, MORSE_ZIFU_KONG]

/-- The sign `=`. -/
def morseDeng : List UInt16 :=
  [MORSE_HUA, MORSE_DIAN, MORSE_DIAN, MORSE_DIAN, MORSE_HUA, MORSE_ZIFU_KONG]

/-- The sign `'`. -/
def morseDanyin : List UInt16 :=
  [MORSE_DIAN, MORSE_HUA, MORSE_HUA, MORSE_HUA, MORSE_HUA, MORSE_DIAN, MORSE_ZIFU_KONG]

/-- The sign `/`. -/
def morseXie : List UInt16 :=
  [MORSE_HUA, MORSE_DIAN, MORSE_DIAN, MORSE_HUA, MORSE_DIAN, MORSE_ZIFU_KONG]

/-- The sign `!`. -/
def morseJing : List UInt16 :=
  [MORSE_HUA, MORSE_DIAN, MORSE_HUA, MORSE_DIAN, MORSE_HUA, MORSE_HUA, MORSE_ZIFU_KONG]

/-- The sign `-`. -/
def morseHua : List UInt16 :=
  [MORSE_HUA, MORSE_DIAN, MORSE_DIAN, MORSE_DIAN, MORSE_DIAN, MORSE_HUA, MORSE_ZIFU_KONG]

/-- The sign `_`. -/
def morseXiahua : List UInt16 :=
  [MORSE_DIAN, MORSE_DIAN, MORSE_HUA, MORSE_HUA, MORSE_DIAN, MORSE_HUA, MORSE_ZIFU_KONG]

/-- The sign `"`. -/
def morseShuangyin : List UInt16 :=
  [MORSE_DIAN, MORSE_HUA, MORSE_DIAN, MORSE_DIAN, MORSE_HUA, MORSE_DIAN, MORSE_ZIFU_KONG]

/-- The sign `(`. -/
def morseZuokuo : List UInt16 :=
  [MORSE_HUA, MORSE_DIAN, MORSE_HUA, MORSE_HUA, MORSE_DIAN, MORSE_ZIFU_KONG]

/-- The sign `)`. -/
def morseYoukuo : List UInt16 :=
  [MORSE_HUA, MORSE_DIAN, MORSE_HUA, MORSE_HUA, MORSE_DIAN, MORSE_HUA, MORSE_ZIFU_KONG]

/-- The sign `$`. -/
def morseMeiyuan : List UInt16 :=
  [MORSE_DIAN, MORSE_DIAN, MORSE_DIAN, MORSE_HUA, MORSE_DIAN, MORSE_DIAN, MORSE_HUA,
    MORSE_ZIFU_KONG]

/-- The sign `&`, four dots as the letter `H` has. -/
def morseAnd : List UInt16 := [MORSE_DIAN, MORSE_DIAN, MORSE_DIAN, MORSE_DIAN, MORSE_ZIFU_KONG]

/-- The sign `@`. -/
def morseAt : List UInt16 :=
  [MORSE_DIAN, MORSE_HUA, MORSE_HUA, MORSE_DIAN, MORSE_HUA, MORSE_DIAN, MORSE_ZIFU_KONG]

/-! ## The encoder as the source computes it -/

/-- The cases of the `switch` in `translate`, with the table each one copies. -/
def switchCases : List (Char × List UInt16) :=
  [ (' ', morseKong), ('A', morseA), ('B', morseB), ('C', morseC), ('D', morseD), ('E', morseE),
    ('F', morseF), ('G', morseG), ('H', morseH), ('I', morseI), ('J', morseJ), ('K', morseK),
    ('L', morseL), ('M', morseM), ('N', morseN), ('O', morseO), ('P', morseP), ('Q', morseQ),
    ('R', morseR), ('S', morseS), ('T', morseT), ('U', morseU), ('V', morseV), ('W', morseW),
    ('X', morseX), ('Y', morseY), ('Z', morseZ), ('0', morse0), ('1', morse1), ('2', morse2),
    ('3', morse3), ('4', morse4), ('5', morse5), ('6', morse6), ('7', morse7), ('8', morse8),
    ('9', morse9), ('.', morseDian), (':', morseMao), (',', morseDou), (';', morseFen),
    ('?', morseWen), ('=', morseDeng), ('\'', morseDanyin), ('/', morseXie), ('!', morseJing),
    ('-', morseHua), ('_', morseXiahua), ('\"', morseShuangyin), ('(', morseZuokuo),
    (')', morseYoukuo), ('$', morseMeiyuan), ('&', morseAnd), ('@', morseAt) ]

/-- The table of a character, none for a character that takes the default case. -/
def caseTable (ch : Char) : Option (List UInt16) :=
  switchCases.lookup ch

/-- The memory behind the tables: `past ch d` is the halfword `d` places behind
the table of the case `ch`, `none` where it must not be read. -/
abbrev Past :=
  Char → Nat → Option UInt16

/-- The value of `morse_X[k]`, inside the table or behind it. -/
def readTable (past : Nat → Option UInt16) (table : List UInt16) (k : Nat) : Option UInt16 :=
  if k < table.length then table[k]? else past (k - table.length)

/-- The copy loop of one case.  Every iteration stores one symbol, so more than
200 iterations would leave `morse_code`; `fuel` bounds the tests of the loop. -/
def copyLoop (past : Nat → Option UInt16) (table : List UInt16) :
    Nat → Nat → WriteBuffer UInt16 → Option (WriteBuffer UInt16)
  | 0, _, _ => none
  | fuel + 1, k, morseCode => do
      let v ← readTable past table k
      if v ≠ 0 then
        let morseCode ← morseCode.put v
        copyLoop past table fuel (k + 1) morseCode
      else some morseCode

/-- The `switch` on one character. -/
def translateChar (past : Past) (ch : Char) (morseCode : WriteBuffer UInt16) :
    Option (WriteBuffer UInt16) :=
  match caseTable ch with
  | some table => copyLoop (past ch) table 201 0 morseCode
  | none => some morseCode

/-- The `for` loop with a number of iterations left; the second argument is the
array from `a[i]` on. -/
def translateLoop (past : Past) :
    Nat → List Char → WriteBuffer UInt16 → Option (WriteBuffer UInt16)
  | 0, _, morseCode => some morseCode
  | _ + 1, [], _ => none
  | n + 1, ch :: a, morseCode => do
      let morseCode ← translateChar past ch morseCode
      translateLoop past n a morseCode

/-- `translate` on the array `a`: the final `morse_code` and `j`. -/
def translate (past : Past) (a : List Char) : Option (WriteBuffer UInt16) :=
  translateLoop past 31 a (WriteBuffer.cleared 0 200)

/-! ## What is written whatever lies behind the tables -/

/-- The halfwords that a copy loop finds from place `k` on: those up to the first
zero, `none` when it must not read one of them or finds no zero in time. -/
def haltedRun (read : Nat → Option UInt16) : Nat → Nat → Option (List UInt16)
  | 0, _ => none
  | fuel + 1, k => do
      let v ← read k
      if v ≠ 0 then
        let vs ← haltedRun read fuel (k + 1)
        some (v :: vs)
      else some []

/-- What one character copies; nothing without a case. -/
def copied (past : Past) (ch : Char) : Option (List UInt16) :=
  match caseTable ch with
  | some table => haltedRun (readTable (past ch) table) 201 0
  | none => some []

/-- What the characters of a text copy, one after the other. -/
def copiedText (past : Past) : List Char → Option (List UInt16)
  | [] => some []
  | ch :: a => do
      let vs ← copied past ch
      let rest ← copiedText past a
      some (vs ++ rest)

/-- A copy loop stores the halfwords up to the first zero. -/
theorem copyLoop_eq (past : Nat → Option UInt16) (table : List UInt16) (fuel k : Nat)
    (morseCode : WriteBuffer UInt16) :
    copyLoop past table fuel k morseCode =
      (haltedRun (readTable past table) fuel k).bind morseCode.putAll := by
  induction fuel generalizing k morseCode with
  | zero => rfl
  | succ fuel ih =>
      rw [copyLoop, haltedRun]
      cases readTable past table k with
      | none => rfl
      | some v =>
          by_cases hv : v = 0
          · simp [hv]
          · simp only [Option.bind_eq_bind, Option.bind_some, ne_eq, hv, not_false_eq_true,
              if_true, ih]
            -- the store of `v` and the search for the zero fail independently
            cases haltedRun (readTable past table) fuel (k + 1) with
            | none => cases morseCode.put v <;> rfl
            | some vs => rfl

/-- A character is translated by copying its table. -/
theorem translateChar_copied (past : Past) (ch : Char) (morseCode : WriteBuffer UInt16) :
    translateChar past ch morseCode = (copied past ch).bind morseCode.putAll := by
  unfold translateChar copied
  cases caseTable ch with
  | none => rfl
  | some table => exact copyLoop_eq (past ch) table 201 0 morseCode

/-- The loop over an array stores what its characters copy, in order. -/
theorem translateLoop_copied (past : Past) (a : List Char) (morseCode : WriteBuffer UInt16) :
    translateLoop past a.length a morseCode = (copiedText past a).bind morseCode.putAll := by
  induction a generalizing morseCode with
  | nil => rfl
  | cons ch a ih =>
      rw [List.length_cons, translateLoop, copiedText, translateChar_copied]
      cases copied past ch with
      | none => rfl
      | some vs =>
          simp only [Option.bind_eq_bind, Option.bind_some, ih]
          cases copiedText past a with
          | none => cases morseCode.putAll vs <;> rfl
          | some rest => exact (WriteBuffer.putAll_append morseCode vs rest).symm

/-- `translate` fills `morse_code` with what the characters of its array copy; it
writes outside the array when that is more than 200 symbols. -/
theorem translate_copied (past : Past) {a : List Char} (ha : a.length = 31) :
    translate past a = (copiedText past a).bind fun vs =>
      if vs.length ≤ 200 then some (WriteBuffer.holding 0 200 vs) else none := by
  have hloop := translateLoop_copied past a (WriteBuffer.cleared 0 200)
  rw [ha] at hloop
  unfold translate
  rw [hloop]
  congr 1
  funext vs
  exact WriteBuffer.putAll_cleared 0 200 vs

/-! ## What is written when the copy loops stop behind their tables -/

/-- Every copy loop finds a zero right behind its table. -/
def Past.ZeroTerminated (past : Past) : Prop :=
  ∀ ch, past ch 0 = some 0

/-- The symbols of a character: its table, nothing without a case. -/
def symbolsOf (ch : Char) : List UInt16 :=
  (caseTable ch).getD []

/-- No table is longer than eight symbols or holds a zero. -/
theorem switchCases_bounds : ∀ c ∈ switchCases, c.2.length ≤ 8 ∧ 0 ∉ c.2 := by
  decide

/-- A table has at most eight symbols and no zero. -/
theorem caseTable_bounds {ch : Char} {table : List UInt16} (h : caseTable ch = some table) :
    table.length ≤ 8 ∧ 0 ∉ table := by
  rcases List.lookup_eq_some_iff.mp h with ⟨l₁, l₂, hmem, -⟩
  have hcase : (ch, table) ∈ switchCases := by
    rw [hmem]
    exact List.mem_append_right l₁ List.mem_cons_self
  exact switchCases_bounds (ch, table) hcase

/-- A copy loop reads through its table, which holds no zero. -/
theorem haltedRun_table {past : Nat → Option UInt16} {table : List UInt16} (hzero : 0 ∉ table)
    {fuel k : Nat} (hk : k ≤ table.length) (hfuel : table.length < fuel + k) :
    haltedRun (readTable past table) fuel k =
      (haltedRun (readTable past table) (fuel + k - table.length) table.length).map
        fun vs => table.drop k ++ vs := by
  induction fuel generalizing k with
  | zero => omega
  | succ fuel ih =>
      by_cases hend : k = table.length
      · simp [hend]
      · have hlt : k < table.length := by omega
        have hne : table[k] ≠ 0 := by
          intro h
          apply hzero
          rw [← h]
          exact List.getElem_mem hlt
        have hread : readTable past table k = some table[k] := by
          simp [readTable, hlt]
        have hshift : fuel + 1 + k - table.length = fuel + (k + 1) - table.length := by omega
        rw [haltedRun, hread, hshift, List.drop_eq_getElem_cons hlt]
        simp only [Option.bind_eq_bind, Option.bind_some, if_pos hne]
        rw [ih hlt (by omega)]
        cases haltedRun (readTable past table) (fuel + (k + 1) - table.length) table.length <;> rfl

/-- A character whose copy loop stops behind its table copies its symbols. -/
theorem copied_eq {past : Past} (hpast : past.ZeroTerminated) (ch : Char) :
    copied past ch = some (symbolsOf ch) := by
  unfold copied symbolsOf
  cases hcase : caseTable ch with
  | none => rfl
  | some table =>
      rcases caseTable_bounds hcase with ⟨hlen, hzero⟩
      obtain ⟨fuel, hfuel⟩ : ∃ f, 201 + 0 - table.length = f + 1 :=
        ⟨200 - table.length, by omega⟩
      have hstop : readTable (past ch) table table.length = some 0 := by
        simp [readTable, hpast ch]
      simp only
      rw [haltedRun_table hzero (Nat.zero_le _) (by omega), hfuel, haltedRun, hstop]
      simp

/-- With a zero behind each table the text is copied table by table. -/
theorem copiedText_eq {past : Past} (hpast : past.ZeroTerminated) (a : List Char) :
    copiedText past a = some (a.flatMap symbolsOf) := by
  induction a with
  | nil => rfl
  | cons ch a ih =>
      rw [copiedText, copied_eq hpast, ih]
      rfl

/-- With a zero behind every table, `translate` fills `morse_code` with the
symbols of its characters; it writes outside the array when they are more than
200. -/
theorem translate_eq {past : Past} (hpast : past.ZeroTerminated) {a : List Char}
    (ha : a.length = 31) :
    translate past a =
      if (a.flatMap symbolsOf).length ≤ 200 then
        some (WriteBuffer.holding 0 200 (a.flatMap symbolsOf))
      else none := by
  rw [translate_copied past ha, copiedText_eq hpast]
  rfl

/-- Characters without a case write nothing. -/
theorem flatMap_symbolsOf_append {s pad : List Char} (hpad : ∀ ch ∈ pad, caseTable ch = none) :
    (s ++ pad).flatMap symbolsOf = s.flatMap symbolsOf := by
  have hnil : pad.flatMap symbolsOf = [] := by
    rw [List.flatMap_eq_nil_iff]
    intro ch hch
    simp [symbolsOf, hpad ch hch]
  rw [List.flatMap_append, hnil, List.append_nil]

end Player
end Ls2kMorse
