import Ls2kMorse.Lib.Split

/-!
# Morse text: symbols, letters and keying

This module fixes the vocabulary shared by the player and the recogniser.  Its
first part holds the symbol constants of the recogniser's `morse_code.h`.  Its
second part is an abstract description of what the two programs are for: a
letter is a list of dots and dashes, a text is a list of nonempty words, and
sending a text is a sequence of marks, each preceded by a gap of a known class.

Main results:

- Definition `keying`: the marks of a text with the class of gap before each.
- Theorem `keying_symbols`: the symbols of a keyed text are the symbol groups
  of its characters, separated by `MORSE_ZIFU_KONG`.
-/

namespace Ls2kMorse

/-! ## Symbols of `morse_code.h` -/

/-- The symbol of a dot. -/
def MORSE_DIAN : Int := 100

/-- The symbol of a dash. -/
def MORSE_HUA : Int := 300

/-- The symbol of the gap between two characters. -/
def MORSE_ZIFU_KONG : Int := 3000

/-- The symbol of the gap between two words. -/
def MORSE_CI_KONG : Int := 7000

/-- The symbol that ends the sequence. -/
def MORSE_FINSH : Int := 0

/-- The symbol that opens the sequence. -/
def MORSE_START : Int := 1

/-! ## Letters and texts -/

/-- The two elements of Morse code. -/
inductive Mark where
  | dot
  | dash
deriving Repr, DecidableEq

/-- The symbol that stands for one element. -/
def Mark.symbol : Mark → Int
  | .dot => MORSE_DIAN
  | .dash => MORSE_HUA

open Mark in
/-- International Morse code of the characters that both programs carry. -/
def morseTable : List (Char × List Mark) :=
  [ ('A', [dot, dash]), ('B', [dash, dot, dot, dot]), ('C', [dash, dot, dash, dot]),
    ('D', [dash, dot, dot]), ('E', [dot]), ('F', [dot, dot, dash, dot]),
    ('G', [dash, dash, dot]), ('H', [dot, dot, dot, dot]), ('I', [dot, dot]),
    ('J', [dot, dash, dash, dash]), ('K', [dash, dot, dash]), ('L', [dot, dash, dot, dot]),
    ('M', [dash, dash]), ('N', [dash, dot]), ('O', [dash, dash, dash]),
    ('P', [dot, dash, dash, dot]), ('Q', [dash, dash, dot, dash]), ('R', [dot, dash, dot]),
    ('S', [dot, dot, dot]), ('T', [dash]), ('U', [dot, dot, dash]),
    ('V', [dot, dot, dot, dash]), ('W', [dot, dash, dash]), ('X', [dash, dot, dot, dash]),
    ('Y', [dash, dot, dash, dash]), ('Z', [dash, dash, dot, dot]),
    ('0', [dash, dash, dash, dash, dash]), ('1', [dot, dash, dash, dash, dash]),
    ('2', [dot, dot, dash, dash, dash]), ('3', [dot, dot, dot, dash, dash]),
    ('4', [dot, dot, dot, dot, dash]), ('5', [dot, dot, dot, dot, dot]),
    ('6', [dash, dot, dot, dot, dot]), ('7', [dash, dash, dot, dot, dot]),
    ('8', [dash, dash, dash, dot, dot]), ('9', [dash, dash, dash, dash, dot]),
    ('=', [dash, dot, dot, dot, dash]), ('/', [dash, dot, dot, dash, dot]),
    ('(', [dash, dot, dash, dash, dot]), ('$', [dot, dot, dot, dash, dot, dot, dash]),
    ('@', [dot, dash, dash, dot, dash, dot]) ]

/-- The characters that both programs carry: letters, digits and five signs. -/
def alphabet : List Char :=
  morseTable.map Prod.fst

/-- The capital letters. -/
def capitals : List Char :=
  alphabet.take 26

/-- The elements of a character, empty for a character without a code. -/
def morseCode (ch : Char) : List Mark :=
  (morseTable.lookup ch).getD []

-- A bounded quantifier over characters is decided along the list, not over all of `Char`.
instance decidableForallMemChar (chars : List Char) (p : Char → Prop) [DecidablePred p] :
    Decidable (∀ ch ∈ chars, p ch) :=
  List.decidableBAll p chars

/-- Every character of the alphabet has at least one element. -/
theorem morseCode_ne_nil : ∀ ch ∈ alphabet, morseCode ch ≠ [] := by
  decide

/-- The capitals are part of the alphabet. -/
theorem capitals_subset : ∀ ch ∈ capitals, ch ∈ alphabet := by
  decide

/-- A nonempty word over a set of characters. -/
structure Word (chars : List Char) where
  letters : List Char
  letters_ne_nil : letters ≠ []
  letters_mem : ∀ ch ∈ letters, ch ∈ chars

/-- The text of a list of words, separated by single spaces. -/
def textOf {chars : List Char} : List (Word chars) → List Char
  | [] => []
  | w :: ws => w.letters ++ ws.flatMap fun w' => ' ' :: w'.letters

/-- A text holds the characters of its words and spaces. -/
theorem mem_textOf {chars : List Char} {words : List (Word chars)} {ch : Char}
    (h : ch ∈ textOf words) : ch ∈ ' ' :: chars := by
  cases words with
  | nil => exact absurd h List.not_mem_nil
  | cons w ws =>
      rcases List.mem_append.mp h with h | h
      · exact List.mem_cons_of_mem _ (w.letters_mem ch h)
      · rcases List.mem_flatMap.mp h with ⟨w', -, h⟩
        rcases List.mem_cons.mp h with rfl | h
        · exact List.mem_cons_self
        · exact List.mem_cons_of_mem _ (w'.letters_mem ch h)

/-! ## Keying -/

/-- The class of the silence before a mark. -/
inductive Gap where
  | lead
  | element
  | letter
  | word
deriving Repr, DecidableEq

/-- A mark together with the class of the silence before it. -/
structure Key where
  gap : Gap
  mark : Mark
deriving Repr, DecidableEq

/-- The keys of one letter, whose first mark follows a gap of class `g`. -/
def letterKeys (g : Gap) : List Mark → List Key
  | [] => []
  | mk :: mks => ⟨g, mk⟩ :: mks.map fun mk' => ⟨.element, mk'⟩

/-- The keys of one word, whose first mark follows a gap of class `g`. -/
def wordKeys (g : Gap) : List Char → List Key
  | [] => []
  | ch :: chs =>
      letterKeys g (morseCode ch) ++ chs.flatMap fun ch' => letterKeys .letter (morseCode ch')

/-- The keys of a text. -/
def keying {chars : List Char} : List (Word chars) → List Key
  | [] => []
  | w :: ws => wordKeys .lead w.letters ++ ws.flatMap fun w' => wordKeys .word w'.letters

/-! ## Symbols of a keyed text -/

/-- The separators that stand for a gap of each class. -/
def Gap.symbols : Gap → List Int
  | .lead => []
  | .element => []
  | .letter => [MORSE_ZIFU_KONG]
  | .word => [MORSE_ZIFU_KONG, MORSE_CI_KONG, MORSE_ZIFU_KONG]

/-- The symbols of one key: the separators of its gap, then its element. -/
def Key.symbols (key : Key) : List Int :=
  key.gap.symbols ++ [key.mark.symbol]

/-- The symbol group of one character of a text. -/
def charGroup (ch : Char) : List Int :=
  if ch = ' ' then [MORSE_CI_KONG] else (morseCode ch).map Mark.symbol

/-- Groups separated by `MORSE_ZIFU_KONG`. -/
def joinGroups (gs : List (List Int)) : List Int :=
  [MORSE_ZIFU_KONG].intercalate gs

/-- Groups are joined by a separator before each further one. -/
theorem joinGroups_cons (g : List Int) (gs : List (List Int)) :
    joinGroups (g :: gs) = g ++ gs.flatMap fun g' => MORSE_ZIFU_KONG :: g' :=
  Lib.intercalate_singleton_cons MORSE_ZIFU_KONG g gs

/-- The blank has no sign. -/
theorem space_not_mem_alphabet : ' ' ∉ alphabet := by
  decide

/-- The group of the blank is the word gap. -/
theorem charGroup_space : charGroup ' ' = [MORSE_CI_KONG] :=
  rfl

/-- The group of a letter is its sign. -/
theorem charGroup_of_mem {ch : Char} (h : ch ∈ alphabet) :
    charGroup ch = (morseCode ch).map Mark.symbol := by
  have hne : ch ≠ ' ' := by
    rintro rfl
    exact space_not_mem_alphabet h
  simp [charGroup, hne]

/-- The symbols of one letter: its separators, then its elements. -/
theorem letterKeys_symbols (g : Gap) {mks : List Mark} (h : mks ≠ []) :
    (letterKeys g mks).flatMap Key.symbols = g.symbols ++ mks.map Mark.symbol := by
  cases mks with
  | nil => exact absurd rfl h
  | cons mk mks =>
      have htail : (mks.map fun mk' => (⟨.element, mk'⟩ : Key)).flatMap Key.symbols =
          mks.map Mark.symbol := by
        induction mks with
        | nil => rfl
        | cons mk' mks ih => simpa [Key.symbols, Gap.symbols] using ih
      simp only [letterKeys, List.flatMap_cons, htail, Key.symbols, List.map_cons,
        List.append_assoc, List.singleton_append]

/-- The symbols of one word: its separators, then the groups of its letters. -/
theorem wordKeys_symbols (g : Gap) {chars letters : List Char}
    (hsub : ∀ ch ∈ chars, ch ∈ alphabet) (hmem : ∀ ch ∈ letters, ch ∈ chars)
    (hne : letters ≠ []) :
    (wordKeys g letters).flatMap Key.symbols =
      g.symbols ++ joinGroups (letters.map charGroup) := by
  have hletter : ∀ (g : Gap) (ch : Char), ch ∈ letters →
      (letterKeys g (morseCode ch)).flatMap Key.symbols = g.symbols ++ charGroup ch := by
    intro g ch hch
    have hch' := hsub ch (hmem ch hch)
    rw [letterKeys_symbols g (morseCode_ne_nil ch hch'), charGroup_of_mem hch']
  cases letters with
  | nil => exact absurd rfl hne
  | cons ch chs =>
      have htail : (chs.flatMap fun ch' => letterKeys .letter (morseCode ch')).flatMap
          Key.symbols = (chs.map charGroup).flatMap fun g' => MORSE_ZIFU_KONG :: g' := by
        rw [List.flatMap_assoc, List.flatMap_map]
        refine List.flatMap_congr fun ch' hch' => ?_
        rw [hletter .letter ch' (List.mem_cons_of_mem ch hch')]
        rfl
      rw [wordKeys, List.flatMap_append, hletter g ch List.mem_cons_self, htail,
        List.append_assoc, List.map_cons, joinGroups_cons]

/-- The symbols of a keyed text are the groups of its characters, separated by
`MORSE_ZIFU_KONG`; a space is the group of one `MORSE_CI_KONG`. -/
theorem keying_symbols {chars : List Char} (hsub : ∀ ch ∈ chars, ch ∈ alphabet)
    (words : List (Word chars)) :
    (keying words).flatMap Key.symbols = joinGroups ((textOf words).map charGroup) := by
  cases words with
  | nil => rfl
  | cons w ws =>
      have hword : ∀ (g : Gap) (w' : Word chars),
          (wordKeys g w'.letters).flatMap Key.symbols =
            g.symbols ++ joinGroups (w'.letters.map charGroup) := fun g w' =>
        wordKeys_symbols g hsub w'.letters_mem w'.letters_ne_nil
      have htail : (ws.flatMap fun w' => wordKeys .word w'.letters).flatMap Key.symbols =
          ((ws.flatMap fun w' => ' ' :: w'.letters).map charGroup).flatMap
            fun g' => MORSE_ZIFU_KONG :: g' := by
        rw [List.flatMap_assoc, List.map_flatMap, List.flatMap_assoc]
        refine List.flatMap_congr fun w' _ => ?_
        rw [hword .word w']
        rcases List.exists_cons_of_ne_nil w'.letters_ne_nil with ⟨ch, chs, hw'⟩
        simp [hw', joinGroups_cons, Gap.symbols, charGroup_space]
      rcases List.exists_cons_of_ne_nil w.letters_ne_nil with ⟨ch, chs, hw⟩
      rw [keying, List.flatMap_append, hword, htail, textOf, hw]
      simp [joinGroups_cons, Gap.symbols]

end Ls2kMorse
