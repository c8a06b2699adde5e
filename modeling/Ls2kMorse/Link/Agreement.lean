import Ls2kMorse.Player.Translate
import Ls2kMorse.Recognizer.Reception

/-!
# Encoder and decoder agree

The player and the recogniser hold Morse code twice: the player as tables that
end with their separator, the recogniser as comparisons of groups between
separators.  What `translate` writes for a text is read by `inverse_translate`
as the groups of its characters, followed by one empty group.

Main results:

- Theorem `symbolsOf_eq_charGroup`: the table of a character is its group and a
  separator.
- Theorem `inverseTranslate_translate`: decoding what `translate` writes for a
  text leaves the text in `code`.
-/

namespace Ls2kMorse

open Lib

namespace Player

/-- A symbol of the player as a symbol of the recogniser. -/
def toSymbol (v : UInt16) : Int :=
  v.toNat

/-- The table of each character that both programs carry is the group of the
character and a separator. -/
theorem symbolsOf_eq_charGroup : ∀ ch ∈ ' ' :: alphabet,
    (symbolsOf ch).map toSymbol = charGroup ch ++ [Ls2kMorse.MORSE_ZIFU_KONG] := by
  decide

end Player

/-- Groups that each end with a separator are joined groups with an empty last
group. -/
theorem joinGroups_append_nil (gs : List (List Int)) :
    joinGroups (gs ++ [[]]) = gs.flatMap fun g => g ++ [MORSE_ZIFU_KONG] := by
  induction gs with
  | nil => rfl
  | cons g gs ih =>
      rw [List.flatMap_cons, ← ih]
      cases gs with
      | nil => simp [joinGroups_cons]
      | cons g' gs =>
          rw [List.cons_append, List.cons_append, joinGroups_cons_cons, List.append_assoc]
          rfl

/-- What `translate` writes for a text, read by the recogniser. -/
theorem map_toSymbol_symbolsOf {s : List Char} (hs : ∀ ch ∈ s, ch ∈ ' ' :: alphabet) :
    (s.flatMap Player.symbolsOf).map Player.toSymbol =
      joinGroups (s.map charGroup ++ [[]]) := by
  rw [joinGroups_append_nil, List.map_flatMap, List.flatMap_map]
  apply List.flatMap_congr
  intro ch hch
  exact Player.symbolsOf_eq_charGroup ch (hs ch hch)

/-- Let `translate` be given a text of at most 30 characters, padded to 31 by
characters without a case, and let the text have at most 198 symbols.  Then
`translate` writes these symbols, and `inverse_translate`, run on `MORSE_START`,
the symbols and zeros, leaves the text in `code`, followed only by `~`. -/
theorem inverseTranslate_translate {past : Player.Past} (hpast : past.ZeroTerminated)
    {s pad : List Char} (hs : ∀ ch ∈ s, ch ∈ ' ' :: alphabet) (hlen : s.length ≤ 30)
    (hpad : ∀ ch ∈ pad, Player.caseTable ch = none) (ha : (s ++ pad).length = 31)
    (hm : (s.flatMap Player.symbolsOf).length ≤ 198) :
    let m := s.flatMap Player.symbolsOf
    Player.translate past (s ++ pad) = some (WriteBuffer.holding 0 200 m) ∧
      ∃ code, inverseTranslate (MORSE_START :: m.map Player.toSymbol ++
          List.replicate (199 - m.length) MORSE_FINSH) = some code ∧
        code.cells = s ++ List.replicate (31 - s.length) '~' := by
  intro m
  have hm' : m.length ≤ 198 := hm
  constructor
  · rw [Player.translate_eq hpast ha, Player.flatMap_symbolsOf_append hpad]
    exact if_pos (by omega)
  · refine ⟨WriteBuffer.holding '~' 31 s, ?_, rfl⟩
    obtain ⟨zeros, hzeros⟩ : ∃ z, 199 - m.length = z + 1 := ⟨198 - m.length, by omega⟩
    have hlength : (MORSE_START :: m.map Player.toSymbol ++
        List.replicate (199 - m.length) MORSE_FINSH).length = 200 := by
      simp only [List.length_append, List.length_cons, List.length_map, List.length_replicate]
      omega
    have hgroups : ∀ g ∈ s.map charGroup ++ [[]], (∀ x ∈ g, InGroup x) ∧ g.length ≤ 7 := by
      intro g hg
      rcases List.mem_append.mp hg with hg | hg
      · exact charGroups_inGroup hs g hg
      · rcases List.mem_singleton.mp hg with rfl
        exact ⟨fun x hx => absurd hx List.not_mem_nil, by decide⟩
    have happended : (s.map charGroup ++ [[]]).flatMap groupChars = s := by
      rw [List.flatMap_append, flatMap_groupChars_text hs]
      exact List.append_nil s
    have hjoin : MORSE_START :: m.map Player.toSymbol ++
        List.replicate (199 - m.length) MORSE_FINSH = MORSE_START ::
          (joinGroups (s.map charGroup ++ [[]]) ++
            MORSE_FINSH :: List.replicate zeros MORSE_FINSH) := by
      rw [map_toSymbol_symbolsOf hs, hzeros]
      rfl
    rw [inverseTranslate_joinGroups (by simp) hgroups (Or.inl rfl) hlength hjoin, happended,
      WriteBuffer.putAll_cleared]
    exact if_pos (by omega)

/-- The text `A B`, as the player's buffer holds it after a line has been read. -/
theorem inverseTranslate_translate_A_B :
    let m := ['A', ' ', 'B'].flatMap Player.symbolsOf
    Player.translate (fun _ _ => some 0)
        (['A', ' ', 'B'] ++ ('\n' :: Char.ofNat 0 :: List.replicate 26 '~')) =
          some (WriteBuffer.holding 0 200 m) ∧
      ∃ code, inverseTranslate (MORSE_START :: m.map Player.toSymbol ++
          List.replicate (199 - m.length) MORSE_FINSH) = some code ∧
        code.cells = ['A', ' ', 'B'] ++ List.replicate 28 '~' :=
  inverseTranslate_translate (fun _ => rfl) (by decide) (by decide) (by decide)
    (by decide) (by decide)

end Ls2kMorse
