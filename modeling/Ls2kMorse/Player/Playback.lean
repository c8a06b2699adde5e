import Ls2kMorse.Player.Translate
import Ls2kMorse.Morse.Alphabet
import Mathlib.Algebra.Order.BigOperators.Group.List
import Mathlib.Algebra.Order.Ring.Nat

/-!
# The playback loop of the player

`morse_play_once` turns the symbols in `morse_code` into a timeline of sound and
silence: every symbol is one or two delays, silences that follow each other add
up, and the loop stops at the first zero.  At every speed but zero the timeline of
a text is the sequence of its keys, each with the silence and the tone of its class.

Main results:

- Theorem `playback_eq`: the loop plays the symbols in front of the first zero.
- Theorem `soundings_keyingAt`: the silences and tones of a text are those of its
  keys.
- Theorem `playText_eq`: at speed 1 so are those of `translate` followed by the
  loop.
-/

namespace Ls2kMorse
namespace Player

open Lib

/-! ## The loop as the source computes it -/

/-- A stretch of time with the sound on or off, in milliseconds. -/
structure Segment where
  on : Bool
  ms : Int
deriving Repr, DecidableEq

/-- Division of `int` values, undefined for the divisor zero. -/
def cdiv (x y : Int) : Option Int :=
  if y = 0 then none else some (x.tdiv y)

/-- The branches of the loop on one symbol. -/
def playSymbol (speed : Int) (v : UInt16) : Option (List Segment) :=
  if v = 3000 then do
    let d ← cdiv 600 speed
    some [⟨false, d⟩]
  else if v = 7000 then do
    let d ← cdiv 400 speed
    some [⟨false, d⟩]
  else if v = 100 ∨ v = 300 then do
    let d ← cdiv (v.toNat * 2) speed
    let g ← cdiv 200 speed
    some [⟨true, d⟩, ⟨false, g⟩]
  else some []

/-- The `while` loop on the array from `morse_code[i]` on. -/
def playback (speed : Int) : List UInt16 → Option (List Segment)
  | [] => none
  | v :: morseCode =>
      if v ≠ 0 then do
        let segments ← playSymbol speed v
        let rest ← playback speed morseCode
        some (segments ++ rest)
      else some []

/-- `morse_play_once` from its buffer on: `translate`, then the loop. -/
def playText (past : Past) (speed : Int) (a : List Char) : Option (List Segment) := do
  let morseCode ← translate past a
  playback speed morseCode.cells

/-- The tones of a timeline, each with the silence since the tone before it;
`off` is the silence so far. -/
def soundings : Int → List Segment → List (Int × Int)
  | _, [] => []
  | off, ⟨true, ms⟩ :: rest => (off, ms) :: soundings 0 rest
  | off, ⟨false, ms⟩ :: rest => soundings (off + ms) rest

/-! ## Symbols in front of the first zero -/

/-- The segments of one symbol at a speed other than zero. -/
def segmentsAt (speed : Int) (v : UInt16) : List Segment :=
  if v = MORSE_ZIFU_KONG then [⟨false, Int.tdiv 600 speed⟩]
  else if v = MORSE_CI_KONG then [⟨false, Int.tdiv 400 speed⟩]
  else if v = MORSE_DIAN ∨ v = MORSE_HUA then
    [⟨true, Int.tdiv (v.toNat * 2) speed⟩, ⟨false, Int.tdiv 200 speed⟩]
  else []

theorem playSymbol_eq {speed : Int} (hspeed : speed ≠ 0) (v : UInt16) :
    playSymbol speed v = some (segmentsAt speed v) := by
  unfold playSymbol segmentsAt MORSE_ZIFU_KONG MORSE_CI_KONG MORSE_DIAN MORSE_HUA
  split_ifs <;> simp [cdiv, hspeed]

/-- The loop plays the symbols in front of the first zero. -/
theorem playback_eq {speed : Int} (hspeed : speed ≠ 0) {m : List UInt16} (hm : 0 ∉ m)
    (rest : List UInt16) :
    playback speed (m ++ 0 :: rest) = some (m.flatMap (segmentsAt speed)) := by
  induction m with
  | nil => rfl
  | cons v m ih =>
      have hv : v ≠ 0 := fun h => hm (by rw [h]; exact List.mem_cons_self)
      have hrest := ih fun h => hm (List.mem_cons_of_mem v h)
      rw [List.cons_append, playback, if_pos hv, playSymbol_eq hspeed, hrest, List.flatMap_cons]
      rfl

/-- No character writes a zero. -/
theorem zero_not_mem_symbolsOf (s : List Char) : 0 ∉ s.flatMap symbolsOf := by
  intro h
  rcases List.mem_flatMap.mp h with ⟨ch, -, hch⟩
  unfold symbolsOf at hch
  cases hcase : caseTable ch with
  | none => simp [hcase] at hch
  | some table =>
      rw [hcase] at hch
      exact (caseTable_bounds hcase).2 hch

/-! ## The timeline of a text -/

/-- The symbol of the player that stands for one element. -/
def markSymbol : Mark → UInt16
  | .dot => MORSE_DIAN
  | .dash => MORSE_HUA

/-- Length of the tone of an element. -/
def toneAt (speed : Int) : Mark → Int
  | .dot => Int.tdiv 200 speed
  | .dash => Int.tdiv 600 speed

/-- Length of the silence of a gap: after an element, more for a separator, and
more again for a space and its separator. -/
def silenceAt (speed : Int) : Gap → Int
  | .lead => 0
  | .element => Int.tdiv 200 speed
  | .letter => Int.tdiv 200 speed + Int.tdiv 600 speed
  | .word => Int.tdiv 200 speed + Int.tdiv 600 speed + (Int.tdiv 400 speed + Int.tdiv 600 speed)

/-- The silence and the tone of one key. -/
def soundingAt (speed : Int) (key : Key) : Int × Int :=
  (silenceAt speed key.gap, toneAt speed key.mark)

/-- The table of a character is its elements and a separator. -/
theorem symbolsOf_eq : ∀ ch ∈ alphabet,
    symbolsOf ch = (morseCode ch).map markSymbol ++ [MORSE_ZIFU_KONG] := by
  decide

theorem symbolsOf_space : symbolsOf ' ' = [MORSE_CI_KONG, MORSE_ZIFU_KONG] := by
  decide

section Timeline

variable (speed : Int)

theorem soundings_markSymbol (off : Int) (mk : Mark) (rest : List Segment) :
    soundings off (segmentsAt speed (markSymbol mk) ++ rest) =
      (off, toneAt speed mk) :: soundings (silenceAt speed .element) rest := by
  have hsilence : (0 : Int) + Int.tdiv 200 speed = silenceAt speed .element := Int.zero_add _
  rw [← hsilence]
  cases mk <;> rfl

theorem soundings_ZIFU_KONG (off : Int) (rest : List Segment) :
    soundings off (segmentsAt speed MORSE_ZIFU_KONG ++ rest) =
      soundings (off + Int.tdiv 600 speed) rest :=
  rfl

theorem soundings_CI_KONG (off : Int) (rest : List Segment) :
    soundings off (segmentsAt speed MORSE_CI_KONG ++ rest) =
      soundings (off + Int.tdiv 400 speed) rest :=
  rfl

/-- The elements of a letter, played after a silence. -/
theorem soundings_elements (off : Int) (mk : Mark) (mks : List Mark) (rest : List Segment) :
    soundings off (((mk :: mks).map markSymbol).flatMap (segmentsAt speed) ++ rest) =
      (off, toneAt speed mk) :: (mks.map fun mk' => soundingAt speed ⟨.element, mk'⟩) ++
        soundings (silenceAt speed .element) rest := by
  induction mks generalizing off mk with
  | nil => simpa using soundings_markSymbol speed off mk rest
  | cons mk' mks ih =>
      have hnext := ih (silenceAt speed .element) mk'
      rw [List.map_cons, List.flatMap_cons, List.append_assoc, soundings_markSymbol, hnext]
      rfl

/-- A letter is its keys and the separator behind it. -/
theorem soundings_letter {g : Gap} {ch : Char} (hch : ch ∈ alphabet) (rest : List Segment) :
    soundings (silenceAt speed g) ((symbolsOf ch).flatMap (segmentsAt speed) ++ rest) =
      (letterKeys g (morseCode ch)).map (soundingAt speed) ++
        soundings (silenceAt speed .letter) rest := by
  have hne := morseCode_ne_nil ch hch
  rw [symbolsOf_eq ch hch, List.flatMap_append, List.append_assoc]
  cases hcode : morseCode ch with
  | nil => exact absurd hcode hne
  | cons mk mks =>
      rw [soundings_elements, letterKeys, List.map_cons, List.map_map]
      rfl

/-- The letters of a word behind its first one. -/
theorem soundings_letters {letters : List Char} (hmem : ∀ ch ∈ letters, ch ∈ alphabet)
    (rest : List Segment) :
    soundings (silenceAt speed .letter)
        ((letters.flatMap symbolsOf).flatMap (segmentsAt speed) ++ rest) =
      (letters.flatMap fun ch => letterKeys .letter (morseCode ch)).map (soundingAt speed) ++
        soundings (silenceAt speed .letter) rest := by
  induction letters with
  | nil => rfl
  | cons ch chs ih =>
      rw [List.flatMap_cons, List.flatMap_append, List.append_assoc,
        soundings_letter speed (hmem ch List.mem_cons_self),
        ih fun ch' hch' => hmem ch' (List.mem_cons_of_mem ch hch'), List.flatMap_cons,
        List.map_append, List.append_assoc]

/-- A word is its keys. -/
theorem soundings_word {g : Gap} {letters : List Char} (hne : letters ≠ [])
    (hmem : ∀ ch ∈ letters, ch ∈ alphabet) (rest : List Segment) :
    soundings (silenceAt speed g)
        ((letters.flatMap symbolsOf).flatMap (segmentsAt speed) ++ rest) =
      (wordKeys g letters).map (soundingAt speed) ++
        soundings (silenceAt speed .letter) rest := by
  cases letters with
  | nil => exact absurd rfl hne
  | cons ch chs =>
      rw [List.flatMap_cons, List.flatMap_append, List.append_assoc,
        soundings_letter speed (hmem ch List.mem_cons_self),
        soundings_letters speed fun ch' hch' => hmem ch' (List.mem_cons_of_mem ch hch'),
        wordKeys, List.map_append, List.append_assoc]

/-- A space turns the gap behind a letter into the gap between words. -/
theorem soundings_space (rest : List Segment) :
    soundings (silenceAt speed .letter)
        ([MORSE_CI_KONG, MORSE_ZIFU_KONG].flatMap (segmentsAt speed) ++ rest) =
      soundings (silenceAt speed .word) rest := by
  rw [List.flatMap_cons, List.append_assoc, soundings_CI_KONG, List.flatMap_singleton,
    soundings_ZIFU_KONG, Int.add_assoc]
  rfl

/-- The words of a text behind its first one. -/
theorem soundings_words {chars : List Char} (hsub : ∀ ch ∈ chars, ch ∈ alphabet)
    (ws : List (Word chars)) :
    soundings (silenceAt speed .letter)
        (((ws.flatMap fun w => ' ' :: w.letters).flatMap symbolsOf).flatMap (segmentsAt speed)) =
      (ws.flatMap fun w => wordKeys .word w.letters).map (soundingAt speed) := by
  induction ws with
  | nil => rfl
  | cons w ws ih =>
      have hmem : ∀ ch ∈ w.letters, ch ∈ alphabet := fun ch hch => hsub ch (w.letters_mem ch hch)
      rw [List.flatMap_cons, List.flatMap_append, List.flatMap_append, List.flatMap_cons,
        List.flatMap_append, List.append_assoc, symbolsOf_space, soundings_space,
        soundings_word speed w.letters_ne_nil hmem, ih, List.flatMap_cons, List.map_append]

/-- The silences and tones of a text are those of its keys. -/
theorem soundings_keyingAt {chars : List Char} (hsub : ∀ ch ∈ chars, ch ∈ alphabet)
    (words : List (Word chars)) :
    soundings 0 (((textOf words).flatMap symbolsOf).flatMap (segmentsAt speed)) =
      (keying words).map (soundingAt speed) := by
  cases words with
  | nil => rfl
  | cons w ws =>
      have hmem : ∀ ch ∈ w.letters, ch ∈ alphabet := fun ch hch => hsub ch (w.letters_mem ch hch)
      have hword := soundings_word speed (g := .lead) w.letters_ne_nil hmem
      rw [textOf, List.flatMap_append, List.flatMap_append, keying, List.map_append,
        ← soundings_words speed hsub ws]
      exact hword _

end Timeline

/-! ## Texts that fit the arrays -/

/-- A letter has at most four elements. -/
theorem length_symbolsOf_le : ∀ ch ∈ ' ' :: capitals, (symbolsOf ch).length ≤ 5 := by
  decide

/-- A text of letters takes at most five symbols for each character. -/
theorem length_flatMap_symbolsOf_le (words : List (Word capitals)) :
    ((textOf words).flatMap symbolsOf).length ≤ (textOf words).length * 5 := by
  have hle : ∀ n ∈ (textOf words).map fun ch => (symbolsOf ch).length, n ≤ 5 := by
    intro n hn
    rcases List.mem_map.mp hn with ⟨ch, hch, rfl⟩
    exact length_symbolsOf_le ch (mem_textOf hch)
  have hsum := List.sum_le_card_nsmul _ 5 hle
  rw [List.length_map, Nat.nsmul_eq_mul] at hsum
  rwa [List.length_flatMap]

/-- When the symbols leave a zero in `morse_code`, the loop plays them up to it. -/
theorem playText_eq_playback {past : Past} (hpast : past.ZeroTerminated) (speed : Int)
    {a : List Char} (ha : a.length = 31) (hfits : (a.flatMap symbolsOf).length ≤ 199) :
    ∃ rest, playText past speed a = playback speed (a.flatMap symbolsOf ++ 0 :: rest) := by
  obtain ⟨zeros, hzeros⟩ : ∃ z, 200 - (a.flatMap symbolsOf).length = z + 1 :=
    ⟨199 - (a.flatMap symbolsOf).length, by omega⟩
  refine ⟨List.replicate zeros 0, ?_⟩
  have htranslate := translate_eq hpast ha
  rw [if_pos (Nat.le_succ_of_le hfits)] at htranslate
  simp only [playText, htranslate, Option.bind_eq_bind, Option.bind_some]
  rw [WriteBuffer.holding_cells, hzeros]
  rfl

/-- At every speed but zero, a text padded by characters without a case is played
as its keys if its symbols leave a zero in `morse_code`. -/
theorem playText_keyingAt {past : Past} (hpast : past.ZeroTerminated) {speed : Int}
    (hspeed : speed ≠ 0) {chars : List Char} (hsub : ∀ ch ∈ chars, ch ∈ alphabet)
    (words : List (Word chars)) {pad : List Char} (hpad : ∀ ch ∈ pad, caseTable ch = none)
    (ha : (textOf words ++ pad).length = 31)
    (hfits : ((textOf words).flatMap symbolsOf).length ≤ 199) :
    ∃ timeline, playText past speed (textOf words ++ pad) = some timeline ∧
      soundings 0 timeline = (keying words).map (soundingAt speed) := by
  rw [← flatMap_symbolsOf_append hpad] at hfits
  rcases playText_eq_playback hpast speed ha hfits with ⟨rest, hplay⟩
  rw [flatMap_symbolsOf_append hpad, playback_eq hspeed (zero_not_mem_symbolsOf _)] at hplay
  exact ⟨_, hplay, soundings_keyingAt speed hsub words⟩

/-- A text of letters, padded by characters without a case, is played as its
keys. -/
theorem playText_eq {past : Past} (hpast : past.ZeroTerminated) (words : List (Word capitals))
    {pad : List Char} (hpad : ∀ ch ∈ pad, caseTable ch = none)
    (ha : (textOf words ++ pad).length = 31) :
    ∃ timeline, playText past 1 (textOf words ++ pad) = some timeline ∧
      soundings 0 timeline = (keying words).map (soundingAt 1) := by
  have hlen := length_flatMap_symbolsOf_le words
  have htext : (textOf words).length ≤ 31 := by
    rw [← ha, List.length_append]
    exact Nat.le_add_right _ _
  exact playText_keyingAt hpast Int.one_ne_zero capitals_subset words hpad ha (by omega)

end Player
end Ls2kMorse
