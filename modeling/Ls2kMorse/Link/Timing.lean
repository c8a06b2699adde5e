import Ls2kMorse.Player.Playback
import Mathlib.Algebra.Order.Field.Basic
import Mathlib.Algebra.Order.Field.Rat
import Mathlib.Data.List.Forall2
import Mathlib.Tactic.Linarith

/-!
# Player timing against the bands of the recogniser

The recogniser classifies tones and silences by their number of frames.  This
module measures the timeline of the player in frames of a period `p` and asks
for which texts and periods every duration lies in the band of its class.  The
silence inside a letter is as long as a dot, so no period puts a dot into its
band of at least ten frames and that silence into its band of at most six.

Main results:

- Theorem `keys_fit_iff`: the condition on the keys of a text.
- Theorem `playText_fits_iff`: a text fits at the period `p` if and only if each
  of its words is a single `E` or `T` and `p` lies in the range of that letter.
- Theorem `playText_never_fits`: no period fits every text.
-/

namespace Ls2kMorse

/-! ## Bands -/

/-- The band of a tone: 10 to less than 35 frames for a dot, 35 to less than 50
for a dash. -/
def Mark.Fits (p : ℚ) (ms : Int) : Mark → Prop
  | .dot => 10 ≤ ms / p ∧ ms / p < 35
  | .dash => 35 ≤ ms / p ∧ ms / p < 50

/-- The band of a silence: at most 6 frames inside a letter, 7 to 15 between
letters, more than 15 between words. -/
def Gap.Fits (p : ℚ) (ms : Int) : Gap → Prop
  | .lead => True
  | .element => ms / p ≤ 6
  | .letter => 7 ≤ ms / p ∧ ms / p ≤ 15
  | .word => 15 < ms / p

/-- A silence and a tone lie in the bands of a key. -/
def Key.Fits (p : ℚ) (key : Key) (s : Int × Int) : Prop :=
  key.gap.Fits p s.1 ∧ key.mark.Fits p s.2

/-- Measured in frames of `p` milliseconds, every silence and tone of a timeline
lies in the band of the key of the text that it stands for. -/
def TimelineFits {chars : List Char} (p : ℚ) (words : List (Word chars))
    (timeline : List Player.Segment) : Prop :=
  List.Forall₂ (Key.Fits p) (keying words) (Player.soundings 0 timeline)

/-- Every word is a single `E` or `T`, and the period lies in the range in which
its one element fits. -/
def FitsAlone {chars : List Char} (p : ℚ) (words : List (Word chars)) : Prop :=
  ∀ w ∈ words, (w.letters = ['E'] ∧ 40 / 7 < p ∧ p ≤ 20) ∨
    (w.letters = ['T'] ∧ 12 < p ∧ p ≤ 120 / 7)

/-! ## Single durations -/

section Durations

variable {p : ℚ} (hp : 0 < p)

include hp

/-- A duration lies in a band exactly at the periods between its quotients. -/
theorem band_iff {low high ms : ℚ} (hlow : 0 < low) (hhigh : 0 < high) :
    low ≤ ms / p ∧ ms / p < high ↔ ms / high < p ∧ p ≤ ms / low := by
  rw [le_div_iff₀ hp, div_lt_iff₀ hp, div_lt_iff₀ hhigh, le_div_iff₀ hlow, mul_comm low,
    mul_comm high]
  exact and_comm

/-- The frame lengths at which a dot is heard as a dot. -/
theorem dot_fits_iff : Mark.dot.Fits p (Player.toneAt 1 .dot) ↔ 40 / 7 < p ∧ p ≤ 20 := by
  simp only [Mark.Fits, Player.toneAt, Int.tdiv_one]
  rw [band_iff hp (by norm_num) (by norm_num)]
  norm_num

/-- The frame lengths at which a dash is heard as a dash. -/
theorem dash_fits_iff : Mark.dash.Fits p (Player.toneAt 1 .dash) ↔ 12 < p ∧ p ≤ 120 / 7 := by
  simp only [Mark.Fits, Player.toneAt, Int.tdiv_one]
  rw [band_iff hp (by norm_num) (by norm_num)]
  norm_num

/-- A tone that fits bounds the period by the length of a dot over ten frames. -/
theorem period_le_of_mark_fits {mk : Mark} (h : mk.Fits p (Player.toneAt 1 mk)) : p ≤ 20 := by
  cases mk with
  | dot => exact ((dot_fits_iff hp).mp h).2
  | dash =>
      have hhigh := ((dash_fits_iff hp).mp h).2
      linarith

/-- Inside a letter a fitting silence needs a longer period than any tone allows. -/
theorem period_lt_of_element_fits (h : Gap.element.Fits p (Player.silenceAt 1 .element)) :
    20 < p := by
  simp only [Gap.Fits, Player.silenceAt, Int.tdiv_one] at h
  rw [div_le_iff₀ hp] at h
  push_cast at h
  linarith

/-- So does a fitting silence between letters. -/
theorem period_lt_of_letter_fits (h : Gap.letter.Fits p (Player.silenceAt 1 .letter)) :
    20 < p := by
  simp only [Gap.Fits, Player.silenceAt, Int.tdiv_one] at h
  rw [div_le_iff₀ hp] at h
  push_cast at h
  linarith [h.2]

/-- Between words the silence fits every period that a tone allows. -/
theorem word_fits (h : p ≤ 20) : Gap.word.Fits p (Player.silenceAt 1 .word) := by
  simp only [Gap.Fits, Player.silenceAt, Int.tdiv_one]
  rw [lt_div_iff₀ hp]
  push_cast
  linarith

end Durations

/-! ## Keys of a text -/

/-- A letter with one element is `E` or `T`. -/
theorem single_element : ∀ ch ∈ capitals, (morseCode ch).length = 1 → ch = 'E' ∨ ch = 'T' := by
  decide

/-- The keys of a word appear in the keying, behind a lead or a gap between
words. -/
theorem wordKeys_subset_keying {chars : List Char} {words : List (Word chars)}
    {w : Word chars} (hw : w ∈ words) :
    ∃ g, (g = .lead ∨ g = .word) ∧ ∀ k ∈ wordKeys g w.letters, k ∈ keying words := by
  cases words with
  | nil => exact absurd hw List.not_mem_nil
  | cons w' ws =>
      rcases List.mem_cons.mp hw with rfl | hw
      · exact ⟨.lead, Or.inl rfl, fun k hk => List.mem_append_left _ hk⟩
      · refine ⟨.word, Or.inr rfl, fun k hk => List.mem_append_right _ ?_⟩
        exact List.mem_flatMap.mpr ⟨w, hw, hk⟩

/-- Every key belongs to a word. -/
theorem exists_wordKeys_of_mem_keying {chars : List Char} {words : List (Word chars)} {k : Key}
    (hk : k ∈ keying words) :
    ∃ w ∈ words, ∃ g, (g = .lead ∨ g = .word) ∧ k ∈ wordKeys g w.letters := by
  cases words with
  | nil => exact absurd hk List.not_mem_nil
  | cons w ws =>
      rcases List.mem_append.mp hk with hk | hk
      · exact ⟨w, List.mem_cons_self, .lead, Or.inl rfl, hk⟩
      · rcases List.mem_flatMap.mp hk with ⟨w', hw', hk⟩
        exact ⟨w', List.mem_cons_of_mem w hw', .word, Or.inr rfl, hk⟩

/-- A word whose keys all fit is a single letter with a single element. -/
theorem letters_of_wordKeys_fit {p : ℚ} (hp : 0 < p) {w : Word capitals} {g : Gap}
    (h : ∀ k ∈ wordKeys g w.letters, k.Fits p (Player.soundingAt 1 k)) :
    (w.letters = ['E'] ∧ 40 / 7 < p ∧ p ≤ 20) ∨ (w.letters = ['T'] ∧ 12 < p ∧ p ≤ 120 / 7) := by
  rcases List.exists_cons_of_ne_nil w.letters_ne_nil with ⟨ch, chs, hletters⟩
  have hmem : ∀ ch' ∈ ch :: chs, ch' ∈ capitals := by
    rw [← hletters]
    exact w.letters_mem
  have hch := hmem ch List.mem_cons_self
  rcases List.exists_cons_of_ne_nil (morseCode_ne_nil ch (capitals_subset ch hch)) with
    ⟨mk, mks, hcode⟩
  rw [hletters, wordKeys, hcode] at h
  have hmark : mk.Fits p (Player.toneAt 1 mk) :=
    (h ⟨g, mk⟩ (List.mem_append_left _ List.mem_cons_self)).2
  have hle := period_le_of_mark_fits hp hmark
  have hmks : mks = [] := by
    cases mks with
    | nil => rfl
    | cons mk' mks =>
        have hgap := (h ⟨.element, mk'⟩ (List.mem_append_left _
          (List.mem_cons_of_mem _ List.mem_cons_self))).1
        exact absurd (period_lt_of_element_fits hp hgap) (not_lt.mpr hle)
  have hchs : chs = [] := by
    cases chs with
    | nil => rfl
    | cons ch' chs =>
        have hch' := hmem ch' (List.mem_cons_of_mem ch List.mem_cons_self)
        rcases List.exists_cons_of_ne_nil (morseCode_ne_nil ch' (capitals_subset ch' hch')) with
          ⟨mk', mks', hcode'⟩
        have hkey : (⟨.letter, mk'⟩ : Key) ∈ letterKeys .letter (morseCode ch') := by
          rw [hcode']
          exact List.mem_cons_self
        have hgap := (h ⟨.letter, mk'⟩ (List.mem_append_right _
          (List.mem_flatMap.mpr ⟨ch', List.mem_cons_self, hkey⟩))).1
        exact absurd (period_lt_of_letter_fits hp hgap) (not_lt.mpr hle)
  rw [hmks] at hcode
  rw [hletters, hchs]
  rcases single_element ch hch (by rw [hcode]; rfl) with rfl | rfl
  · have hdot : mk = .dot := (List.cons.inj hcode).1.symm
    rw [hdot] at hmark
    exact Or.inl ⟨rfl, (dot_fits_iff hp).mp hmark⟩
  · have hdash : mk = .dash := (List.cons.inj hcode).1.symm
    rw [hdash] at hmark
    exact Or.inr ⟨rfl, (dash_fits_iff hp).mp hmark⟩

/-- The one key of a word that is a single `E` or `T` fits. -/
theorem wordKeys_fit {p : ℚ} (hp : 0 < p) {w : Word capitals} {g : Gap}
    (hg : g = .lead ∨ g = .word)
    (h : (w.letters = ['E'] ∧ 40 / 7 < p ∧ p ≤ 20) ∨
      (w.letters = ['T'] ∧ 12 < p ∧ p ≤ 120 / 7)) :
    ∀ k ∈ wordKeys g w.letters, k.Fits p (Player.soundingAt 1 k) := by
  have hgap : p ≤ 20 → g.Fits p (Player.silenceAt 1 g) := by
    intro hle
    rcases hg with rfl | rfl
    · trivial
    · exact word_fits hp hle
  have hone : ∀ mk : Mark, wordKeys g w.letters = [⟨g, mk⟩] → p ≤ 20 →
      mk.Fits p (Player.toneAt 1 mk) →
        ∀ k ∈ wordKeys g w.letters, k.Fits p (Player.soundingAt 1 k) := by
    intro mk hkeys hle hmark k hk
    rw [hkeys, List.mem_singleton] at hk
    rw [hk]
    exact ⟨hgap hle, hmark⟩
  rcases h with ⟨hletters, hbounds⟩ | ⟨hletters, hbounds⟩
  · have hkeys : wordKeys g w.letters = [⟨g, .dot⟩] := by
      rw [hletters]
      rfl
    exact hone .dot hkeys hbounds.2 ((dot_fits_iff hp).mpr hbounds)
  · have hkeys : wordKeys g w.letters = [⟨g, .dash⟩] := by
      rw [hletters]
      rfl
    have hle : p ≤ 20 := by linarith [hbounds.2]
    exact hone .dash hkeys hle ((dash_fits_iff hp).mpr hbounds)

/-- The keys of a text fit exactly when its words are single letters with a
single element and the period fits these elements. -/
theorem keys_fit_iff {p : ℚ} (hp : 0 < p) (words : List (Word capitals)) :
    (∀ k ∈ keying words, k.Fits p (Player.soundingAt 1 k)) ↔ FitsAlone p words := by
  constructor
  · intro h w hw
    rcases wordKeys_subset_keying hw with ⟨g, -, hkeys⟩
    exact letters_of_wordKeys_fit hp fun k hk => h k (hkeys k hk)
  · intro h k hk
    rcases exists_wordKeys_of_mem_keying hk with ⟨w, hw, g, hg, hk⟩
    exact wordKeys_fit hp hg (h w hw) k hk

/-! ## Texts that fit -/

/-- The timeline of a text at speed 1, measured in frames of `p` milliseconds,
lies in the bands of the recogniser if and only if every word of the text is the
single letter `E`, with `40/7 < p ≤ 20`, or the single letter `T`, with
`12 < p ≤ 120/7`. -/
theorem playText_fits_iff {past : Player.Past} (hpast : past.ZeroTerminated) {p : ℚ}
    (hp : 0 < p) (words : List (Word capitals)) {pad : List Char}
    (hpad : ∀ ch ∈ pad, Player.caseTable ch = none)
    (ha : (textOf words ++ pad).length = 31) :
    ∃ timeline, Player.playText past 1 (textOf words ++ pad) = some timeline ∧
      (TimelineFits p words timeline ↔ FitsAlone p words) := by
  rcases Player.playText_eq hpast words hpad ha with ⟨timeline, hplay, hsoundings⟩
  refine ⟨timeline, hplay, ?_⟩
  unfold TimelineFits
  rw [hsoundings, List.forall₂_map_right_iff, List.forall₂_same]
  exact keys_fit_iff hp words

/-- The text `E T` at 15 milliseconds a frame. -/
theorem playText_fits_E_T :
    let words : List (Word capitals) :=
      [⟨['E'], by decide, by decide⟩, ⟨['T'], by decide, by decide⟩]
    ∃ timeline, Player.playText (fun _ _ => some 0) 1
        (textOf words ++ List.replicate 28 '~') = some timeline ∧
      (TimelineFits 15 words timeline ↔ FitsAlone 15 words) :=
  playText_fits_iff (fun _ => rfl) (by norm_num) _ (by decide) (by decide)

/-- No frame period fits every text of letters: none fits the text `A`. -/
theorem playText_never_fits :
    ¬ ∃ p : ℚ, 0 < p ∧ ∀ (words : List (Word capitals)) (pad : List Char),
      (∀ ch ∈ pad, Player.caseTable ch = none) → (textOf words ++ pad).length = 31 →
        ∃ timeline, Player.playText (fun _ _ => some 0) 1 (textOf words ++ pad) = some timeline ∧
          TimelineFits p words timeline := by
  rintro ⟨p, hp, hall⟩
  have hpast : Player.Past.ZeroTerminated fun _ _ => some 0 := fun _ => rfl
  have hpad : ∀ ch ∈ List.replicate 30 '~', Player.caseTable ch = none := by decide
  rcases hall [⟨['A'], by decide, by decide⟩] (List.replicate 30 '~') hpad (by decide) with
    ⟨timeline, hplay, hfits⟩
  rcases Player.playText_eq hpast [⟨['A'], by decide, by decide⟩] hpad (by decide) with
    ⟨timeline', hplay', hsoundings⟩
  rw [hplay] at hplay'
  obtain rfl : timeline = timeline' := Option.some.inj hplay'
  unfold TimelineFits at hfits
  rw [hsoundings, List.forall₂_map_right_iff, List.forall₂_same] at hfits
  rcases (keys_fit_iff hp _).mp hfits _ List.mem_cons_self with ⟨hE, -⟩ | ⟨hT, -⟩
  · exact absurd hE (by decide)
  · exact absurd hT (by decide)

end Ls2kMorse
