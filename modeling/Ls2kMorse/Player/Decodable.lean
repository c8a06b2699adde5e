import Ls2kMorse.Player.Bounds

/-!
# Reading a text back from its symbols

Every table ends with its only separator, so the symbols of a text can be cut
into tables in one way.  A table names its character, with one exception: the
table of `&` is the one of `H`.

Main results:

- Theorem `sameArray_iff_playedAs`: `translate` leaves the same `morse_code` for
  two texts if and only if they are the same text with `H` for every `&`.
- Theorem `translate_decodable_iff`: when the texts themselves are determined.
-/

namespace Ls2kMorse
namespace Player

/-! ## From a table to its character -/

/-- The character that is heard. -/
def playedAs (ch : Char) : Char :=
  if ch = '&' then 'H' else ch

/-- The first case of the `switch` that copies the table. -/
def caseOf (table : List UInt16) : Option Char :=
  (switchCases.find? fun c => c.2 == table).map fun c => c.1

/-- Every table but the one of `&` is copied by a single case. -/
theorem caseOf_switchCases : ∀ c ∈ switchCases, caseOf c.2 = some (playedAs c.1) := by
  decide

theorem caseOf_symbolsOf {ch : Char} (h : caseTable ch ≠ none) :
    caseOf (symbolsOf ch) = some (playedAs ch) := by
  rcases Option.ne_none_iff_exists'.mp h with ⟨table, hcase⟩
  rcases List.lookup_eq_some_iff.mp hcase with ⟨l₁, l₂, hmem, -⟩
  have hin : (ch, table) ∈ switchCases := by
    rw [hmem]
    exact List.mem_append_right l₁ List.mem_cons_self
  have hsymbols : symbolsOf ch = table := by
    simp [symbolsOf, hcase]
  rw [hsymbols]
  exact caseOf_switchCases (ch, table) hin

theorem symbolsOf_playedAs (ch : Char) : symbolsOf (playedAs ch) = symbolsOf ch := by
  unfold playedAs
  by_cases hand : ch = '&'
  · rw [if_pos hand, hand]
    rfl
  · rw [if_neg hand]

/-! ## From the symbols to the text -/

/-- Every character of the text has a case. -/
def Translatable (s : List Char) : Prop :=
  ∀ ch ∈ s, caseTable ch ≠ none

theorem tablesOf_eq_map {s : List Char} (hs : Translatable s) :
    tablesOf s = s.map symbolsOf := by
  unfold tablesOf
  rw [← List.filterMap_eq_map]
  apply List.filterMap_congr
  intro ch hch
  rcases Option.ne_none_iff_exists'.mp (hs ch hch) with ⟨table, hcase⟩
  simp [symbolsOf, hcase]

/-- The tables of a text determine what is heard, and nothing else. -/
theorem map_symbolsOf_eq_iff {s s' : List Char} (hs : Translatable s) (hs' : Translatable s') :
    s.map symbolsOf = s'.map symbolsOf ↔ s.map playedAs = s'.map playedAs := by
  have hread : ∀ {t : List Char}, Translatable t →
      (t.map symbolsOf).map caseOf = (t.map playedAs).map some := by
    intro t ht
    rw [List.map_map, List.map_map]
    apply List.map_congr_left
    intro ch hch
    exact caseOf_symbolsOf (ht ch hch)
  have hsend : ∀ t : List Char, (t.map playedAs).map symbolsOf = t.map symbolsOf := by
    intro t
    rw [List.map_map]
    apply List.map_congr_left
    intro ch _
    exact symbolsOf_playedAs ch
  constructor
  · intro htables
    have hheard : (s.map playedAs).map some = (s'.map playedAs).map some := by
      rw [← hread hs, ← hread hs', htables]
    exact List.map_injective_iff.mpr (Option.some_injective Char) hheard
  · intro hheard
    rw [← hsend s, ← hsend s', hheard]

/-- For texts whose symbols fit, `translate` leaves the same `morse_code` exactly
when the texts sound the same. -/
theorem sameArray_iff_playedAs {past : Past} (hpast : past.ZeroTerminated)
    {s s' pad pad' : List Char} (hs : Translatable s) (hs' : Translatable s')
    (hpad : ∀ ch ∈ pad, caseTable ch = none) (hpad' : ∀ ch ∈ pad', caseTable ch = none)
    (ha : (s ++ pad).length = 31) (ha' : (s' ++ pad').length = 31)
    (hfits : (s.flatMap symbolsOf).length ≤ 200) :
    SameArray past (s ++ pad) (s' ++ pad') ↔ s.map playedAs = s'.map playedAs := by
  have hcopied := copiedText_eq hpast (s ++ pad)
  have hcopied' := copiedText_eq hpast (s' ++ pad')
  rw [flatMap_symbolsOf_append hpad] at hcopied
  rw [flatMap_symbolsOf_append hpad'] at hcopied'
  have hfit : Fits past (s ++ pad) := ⟨s.flatMap symbolsOf, hcopied, hfits⟩
  rw [sameArray_iff ha ha', and_iff_right hfit, hcopied, hcopied', Option.some.injEq,
    flatMap_symbolsOf_eq_iff, tablesOf_eq_map hs, tablesOf_eq_map hs']
  exact map_symbolsOf_eq_iff hs hs'

/-- Two texts of characters with a case, whose symbols fit, are determined by the
`morse_code` that `translate` leaves for both if and only if they are equal or
differ in more than `&` for `H`. -/
theorem translate_decodable_iff {past : Past} (hpast : past.ZeroTerminated)
    {s s' pad pad' : List Char} (hs : Translatable s) (hs' : Translatable s')
    (hpad : ∀ ch ∈ pad, caseTable ch = none) (hpad' : ∀ ch ∈ pad', caseTable ch = none)
    (ha : (s ++ pad).length = 31) (ha' : (s' ++ pad').length = 31)
    (hfits : (s.flatMap symbolsOf).length ≤ 200) :
    (SameArray past (s ++ pad) (s' ++ pad') → s = s') ↔
      s = s' ∨ s.map playedAs ≠ s'.map playedAs := by
  rw [sameArray_iff_playedAs hpast hs hs' hpad hpad' ha ha' hfits]
  constructor
  · intro himp
    by_cases hheard : s.map playedAs = s'.map playedAs
    · exact Or.inl (himp hheard)
    · exact Or.inr hheard
  · rintro (heq | hheard) hsame
    · exact heq
    · exact absurd hsame hheard

/-- Two words that differ in a letter. -/
theorem translate_decodable_SOS :
    (SameArray (fun _ _ => some 0) (['S', 'O', 'S'] ++ List.replicate 28 '~')
        (['S', 'O', 'N'] ++ List.replicate 28 '~') → ['S', 'O', 'S'] = ['S', 'O', 'N']) ↔
      ['S', 'O', 'S'] = ['S', 'O', 'N'] ∨
        ['S', 'O', 'S'].map playedAs ≠ ['S', 'O', 'N'].map playedAs :=
  translate_decodable_iff (fun _ => rfl) (by unfold Translatable; decide)
    (by unfold Translatable; decide) (by decide) (by decide) (by decide) (by decide) (by decide)

/-- An `&` leaves the array of an `H`. -/
theorem translate_and_H :
    Translatable ['&'] ∧ Translatable ['H'] ∧
      ¬ (SameArray (fun _ _ => some 0) (['&'] ++ List.replicate 30 '~')
        (['H'] ++ List.replicate 30 '~') → ['&'] = ['H']) := by
  refine ⟨by unfold Translatable; decide, by unfold Translatable; decide, ?_⟩
  intro himp
  have hpast : Past.ZeroTerminated fun _ _ => some 0 := fun _ => rfl
  have hsame : SameArray (fun _ _ => some 0) (['&'] ++ List.replicate 30 '~')
      (['H'] ++ List.replicate 30 '~') := by
    rw [sameArray_iff (by decide) (by decide), Fits, copiedText_eq hpast, copiedText_eq hpast]
    exact ⟨⟨_, rfl, by decide⟩, congrArg some (by decide)⟩
  exact absurd (himp hsame) (by decide)

end Player
end Ls2kMorse
