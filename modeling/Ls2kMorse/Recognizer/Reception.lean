import Ls2kMorse.Recognizer.Segmentation
import Ls2kMorse.Recognizer.InverseTranslate

/-!
# End-to-end reception of a keyed text

A keyed text is sent as energies: before each mark a silence whose number of
frames lies in the band of its gap, then a tone whose number of frames lies in
the band of its element, and silence at the end.  The decision loop and the
group decoder together recover the text from every such sequence.

Main results:

- Theorem `Transmission.produced`: the runs of a transmission translate into
  the symbols of its keys.
- Theorem `inverseTranslate_text`: the decoder turns the groups of a text into
  the text.
- Theorem `recognize_transmission`: recognising a transmission of a text leaves
  the text in `code`, followed only by `~`.
-/

namespace Ls2kMorse

open Lib Lib.Hysteresis

/-! ## Transmissions -/

/-- Every frame has an energy below the threshold. -/
def Silent (frames : List Int) : Prop :=
  ∀ en ∈ frames, en < 1000000

/-- Every frame has an energy above the threshold. -/
def Tone (frames : List Int) : Prop :=
  ∀ en ∈ frames, 1000000 < en

/-- In silence no frame is above the threshold. -/
theorem Silent.not_above {frames : List Int} (h : Silent frames) :
    ∀ en ∈ frames, ¬ 1000000 < en := by
  intro en hen
  have hlt := h en hen
  omega

/-- In a tone no frame is below the threshold. -/
theorem Tone.not_below {frames : List Int} (h : Tone frames) :
    ∀ en ∈ frames, ¬ en < 1000000 := by
  intro en hen
  have hlt := h en hen
  omega

/-- The numbers of frames that an element may take. -/
def Mark.FrameCount : Mark → Nat → Prop
  | .dot, n => 10 ≤ n ∧ n ≤ 34
  | .dash, n => 35 ≤ n ∧ n ≤ 49

/-- The numbers of frames that a gap of each class may take. -/
def Gap.FrameCount : Gap → Nat → Prop
  | .lead, _ => True
  | .element, n => 1 ≤ n ∧ n ≤ 6
  | .letter, n => 7 ≤ n ∧ n ≤ 15
  | .word, n => 16 ≤ n

/-- The energy sequences by which a list of keys may be sent: each key is a
silence and a tone of admissible lengths, and silence follows the last one. -/
inductive Transmission : List Key → List Int → Prop where
  | trailing {silence : List Int} (hne : silence ≠ []) (hsilent : Silent silence) :
      Transmission [] silence
  | key {k : Key} {keys : List Key} {silence tone rest : List Int}
      (hsilent : Silent silence) (hgap : k.gap.FrameCount silence.length)
      (htone : Tone tone) (hmark : k.mark.FrameCount tone.length)
      (hrest : Transmission keys rest) :
      Transmission (k :: keys) (silence ++ (tone ++ rest))

/-- `morse_process_once_thread` from the energies on: the decision loop, then
`inverse_translate` on `jud`. -/
def recognize (m₀ n₀ : Int) (En : List Int) : Option (WriteBuffer Char) := do
  let s ← decisionLoop morseProcessOnce m₀ n₀ En
  inverseTranslate s.jud.cells

/-! ## Runs of a transmission -/

/-- A mark whose length lies in its band is recognised. -/
theorem onceMark_of_frameCount {mk : Mark} {n : Nat} (h : mk.FrameCount n) :
    onceMark n = some mk.symbol := by
  unfold onceMark
  cases mk with
  | dot =>
      have hdot : 10 ≤ n ∧ n ≤ 34 := h
      rw [if_pos hdot]
      rfl
  | dash =>
      have hdash : 35 ≤ n ∧ n ≤ 49 := h
      have hndot : ¬ (10 ≤ n ∧ n ≤ 34) := by omega
      rw [if_neg hndot, if_pos hdash]
      rfl

/-- A mark has at least one frame. -/
theorem Mark.FrameCount.pos {mk : Mark} {n : Nat} (h : mk.FrameCount n) : 0 < n := by
  cases mk with
  | dot =>
      have hdot : 10 ≤ n ∧ n ≤ 34 := h
      omega
  | dash =>
      have hdash : 35 ≤ n ∧ n ≤ 49 := h
      omega

/-- A gap whose length lies in its band is recognised. -/
theorem onceGap_of_frameCount {g : Gap} {n : Nat} (hg : g ≠ .lead) (h : g.FrameCount n) :
    onceGap n = g.symbols := by
  unfold onceGap
  cases g with
  | lead => exact absurd rfl hg
  | element =>
      have hlen : 1 ≤ n ∧ n ≤ 6 := h
      have hnzifu : ¬ (7 ≤ n ∧ n ≤ 15) := by omega
      have hnci : ¬ 15 < n := by omega
      rw [if_neg hnzifu, if_neg hnci]
      rfl
  | letter =>
      have hlen : 7 ≤ n ∧ n ≤ 15 := h
      rw [if_pos hlen]
      rfl
  | word =>
      have hlen : 15 < n := h
      have hnzifu : ¬ (7 ≤ n ∧ n ≤ 15) := by omega
      rw [if_neg hnzifu, if_pos hlen]
      rfl

/-- A gap between marks has at least one frame. -/
theorem Gap.FrameCount.pos {g : Gap} {n : Nat} (hg : g ≠ .lead) (h : g.FrameCount n) :
    0 < n := by
  cases g with
  | lead => exact absurd rfl hg
  | element => exact h.1
  | letter =>
      have hlen : 7 ≤ n ∧ n ≤ 15 := h
      omega
  | word =>
      have hlen : 16 ≤ n := h
      omega

/-- The scanner of the decision loop of `morse_process_once_thread`. -/
def onceScan : Level → Nat → List Int → List Run :=
  scan (fun en : Int => 1000000 < en) fun en : Int => en < 1000000

/-- The runs are those of a scan from silence. -/
theorem onceRuns_eq_onceScan (En : List Int) : onceRuns En = onceScan .quiet 0 En :=
  (scan_eq_segment_runs En).symm

/-- A sequence that begins with a silent frame. -/
def StartsSilent (frames : List Int) : Prop :=
  ∃ en rest, frames = en :: rest ∧ en < 1000000

/-- A sequence that opens with silence starts silent. -/
theorem startsSilent_append {silence : List Int} (hsilent : Silent silence)
    (hpos : 0 < silence.length) (rest : List Int) : StartsSilent (silence ++ rest) := by
  rcases List.exists_cons_of_length_pos hpos with ⟨en, silence, rfl⟩
  exact ⟨en, silence ++ rest, rfl, hsilent en List.mem_cons_self⟩

/-- Unless it begins with a lead, a transmission begins with a silent frame. -/
theorem Transmission.startsSilent {keys : List Key} {En : List Int} (h : Transmission keys En)
    (hlead : ∀ k ∈ keys, k.gap ≠ .lead) : StartsSilent En := by
  cases h with
  | trailing hne hsilent =>
      have hstart := startsSilent_append hsilent (List.length_pos_of_ne_nil hne) []
      rwa [List.append_nil] at hstart
  | key hsilent hgap htone hmark hrest =>
      exact startsSilent_append hsilent (hgap.pos (hlead _ List.mem_cons_self)) _

/-- A tone between silences is one mark. -/
theorem onceScan_tone {tone rest : List Int} (htone : Tone tone) (hrest : StartsSilent rest)
    (m i : Nat) :
    onceScan (.high m) i (tone ++ rest) =
      .mark (i + tone.length - m) :: onceScan (.low (i + tone.length)) (i + tone.length) rest := by
  rcases hrest with ⟨en, rest, rfl, hen⟩
  have hnotAbove : ¬ 1000000 < en := by omega
  unfold onceScan
  rw [scan_high_block htone.not_below, scan, if_pos hen, scan, if_neg hnotAbove]

/-- Waiting in a gap, a silence and a tone are one gap and one mark. -/
theorem onceScan_low_key {silence tone rest : List Int} (hsilent : Silent silence)
    (htone : Tone tone) (hpos : 0 < tone.length) (hrest : StartsSilent rest) (n : Nat) :
    ∃ j, onceScan (.low n) n (silence ++ (tone ++ rest)) =
      .gap silence.length :: .mark tone.length :: onceScan (.low j) j rest := by
  rcases List.exists_cons_of_length_pos hpos with ⟨en, tone, rfl⟩
  have hmark := onceScan_tone (fun x hx => htone x (List.mem_cons_of_mem en hx)) hrest
    (n + silence.length) (n + silence.length + 1)
  refine ⟨n + silence.length + 1 + tone.length, ?_⟩
  unfold onceScan at hmark ⊢
  rw [scan_low_block hsilent.not_above, List.cons_append, scan,
    if_pos (htone en List.mem_cons_self), hmark, Nat.add_sub_cancel_left, List.length_cons]
  congr 3
  omega

/-- Waiting for the first mark, a silence and a tone are one mark. -/
theorem onceScan_quiet_key {silence tone rest : List Int} (hsilent : Silent silence)
    (htone : Tone tone) (hpos : 0 < tone.length) (hrest : StartsSilent rest) (i : Nat) :
    ∃ j, onceScan .quiet i (silence ++ (tone ++ rest)) =
      .mark tone.length :: onceScan (.low j) j rest := by
  rcases List.exists_cons_of_length_pos hpos with ⟨en, tone, rfl⟩
  have hmark := onceScan_tone (fun x hx => htone x (List.mem_cons_of_mem en hx)) hrest
    (i + silence.length) (i + silence.length + 1)
  refine ⟨i + silence.length + 1 + tone.length, ?_⟩
  unfold onceScan at hmark ⊢
  rw [scan_quiet_block hsilent.not_above, List.cons_append, scan,
    if_pos (htone en List.mem_cons_self), hmark, List.length_cons]
  congr 2
  omega

/-- Behind a closed mark, the runs of a transmission translate into the symbols
of its keys. -/
theorem Transmission.produced {keys : List Key} {En : List Int} (h : Transmission keys En)
    (hlead : ∀ k ∈ keys, k.gap ≠ .lead) (n : Nat) :
    (onceScan (.low n) n En).flatMap (runSymbols onceMark onceGap) =
      keys.flatMap Key.symbols := by
  induction h generalizing n with
  | @trailing silence hne hsilent =>
      have hscan : onceScan (.low n) n (silence ++ []) = _ :=
        scan_low_block hsilent.not_above n n []
      rw [List.append_nil, scan_nil] at hscan
      rw [hscan]
      rfl
  | @key k keys silence tone rest hsilent hgap htone hmark hrest ih =>
      have hlead' : ∀ k' ∈ keys, k'.gap ≠ .lead := fun k' hk' =>
        hlead k' (List.mem_cons_of_mem k hk')
      rcases onceScan_low_key hsilent htone hmark.pos (hrest.startsSilent hlead') n with ⟨j, hscan⟩
      have hk : k.gap ≠ .lead := hlead k List.mem_cons_self
      rw [hscan, List.flatMap_cons, List.flatMap_cons, ih hlead' j, List.flatMap_cons]
      simp only [runSymbols, onceGap_of_frameCount hk hgap, onceMark_of_frameCount hmark,
        Key.symbols, Option.toList_some, List.append_assoc]

/-! ## Symbols of a transmitted text -/

/-- Only the first key of a letter follows the given gap. -/
theorem letterKeys_gap {g : Gap} (hg : g ≠ .lead) (mks : List Mark) :
    ∀ k ∈ letterKeys g mks, k.gap ≠ .lead := by
  cases mks with
  | nil => exact fun k hk => absurd hk List.not_mem_nil
  | cons mk mks =>
      intro k hk
      rcases List.mem_cons.mp hk with rfl | hk
      · exact hg
      · rcases List.mem_map.mp hk with ⟨mk', -, rfl⟩
        exact Gap.noConfusion

/-- Inside a word no gap is the lead. -/
theorem wordKeys_gap {g : Gap} (hg : g ≠ .lead) (letters : List Char) :
    ∀ k ∈ wordKeys g letters, k.gap ≠ .lead := by
  cases letters with
  | nil => exact fun k hk => absurd hk List.not_mem_nil
  | cons ch chs =>
      intro k hk
      rcases List.mem_append.mp hk with hk | hk
      · exact letterKeys_gap hg _ k hk
      · rcases List.mem_flatMap.mp hk with ⟨ch', -, hk⟩
        exact letterKeys_gap Gap.noConfusion _ k hk

/-- A keyed text that is not empty begins with its only lead. -/
theorem keying_cons (w : Word alphabet) (ws : List (Word alphabet)) :
    ∃ mk rest, keying (w :: ws) = ⟨.lead, mk⟩ :: rest ∧ ∀ k ∈ rest, k.gap ≠ .lead := by
  rcases List.exists_cons_of_ne_nil w.letters_ne_nil with ⟨ch, chs, hw⟩
  have hch : ch ∈ alphabet := w.letters_mem ch (by simp [hw])
  rcases List.exists_cons_of_ne_nil (morseCode_ne_nil ch hch) with ⟨mk, mks, hcode⟩
  refine ⟨mk, mks.map (fun mk' => ⟨.element, mk'⟩) ++
    (chs.flatMap fun ch' => letterKeys .letter (morseCode ch')) ++
    ws.flatMap fun w' => wordKeys .word w'.letters, ?_, ?_⟩
  · simp [keying, wordKeys, letterKeys, hw, hcode]
  · intro k hk
    rcases List.mem_append.mp hk with hk | hk
    · rcases List.mem_append.mp hk with hk | hk
      · rcases List.mem_map.mp hk with ⟨mk', -, rfl⟩
        exact Gap.noConfusion
      · rcases List.mem_flatMap.mp hk with ⟨ch', -, hk⟩
        exact letterKeys_gap Gap.noConfusion _ k hk
    · rcases List.mem_flatMap.mp hk with ⟨w', -, hk⟩
      exact wordKeys_gap Gap.noConfusion _ k hk

/-- Silence alone produces no symbols. -/
theorem Transmission.onceSymbols_nil {En : List Int} (h : Transmission [] En) :
    onceSymbols En = [] := by
  cases h with
  | trailing hne hsilent =>
      have hscan : onceScan .quiet 0 (En ++ []) = _ := scan_quiet_block hsilent.not_above 0 []
      rw [List.append_nil, scan_nil] at hscan
      unfold onceSymbols
      rw [onceRuns_eq_onceScan, hscan]
      rfl

/-- A transmission that begins with its only lead produces `MORSE_START` and the
symbols of its keys. -/
theorem Transmission.onceSymbols_cons {mk : Mark} {keys : List Key} {En : List Int}
    (h : Transmission (⟨.lead, mk⟩ :: keys) En) (hlead : ∀ k ∈ keys, k.gap ≠ .lead) :
    onceSymbols En =
      MORSE_START :: ((⟨.lead, mk⟩ : Key) :: keys).flatMap Key.symbols := by
  cases h with
  | @key k keys silence tone rest hsilent hgap htone hmark hrest =>
      rcases onceScan_quiet_key hsilent htone hmark.pos (hrest.startsSilent hlead) 0 with ⟨j, hscan⟩
      have hclass : (onceMark tone.length).isSome := by
        rw [onceMark_of_frameCount hmark]
        rfl
      unfold onceSymbols
      rw [onceRuns_eq_onceScan, hscan, runLengthSymbols_of_classified _ _ hclass,
        List.flatMap_cons, hrest.produced hlead j, List.flatMap_cons]
      simp [runSymbols, onceMark_of_frameCount hmark, Key.symbols, Gap.symbols]

/-! ## Decoding the groups of a text -/

/-- The decoder turns the group of a character back into the character. -/
theorem groupChars_charGroup : ∀ ch ∈ ' ' :: alphabet, groupChars (charGroup ch) = [ch] := by
  decide

/-- The group of a character is one that the decoder can copy. -/
theorem charGroup_inGroup : ∀ ch ∈ ' ' :: alphabet,
    (∀ x ∈ charGroup ch, x ≠ MORSE_ZIFU_KONG ∧ x ≠ MORSE_FINSH) ∧ (charGroup ch).length ≤ 7 := by
  decide

/-- The groups of a text fit in the array `c`. -/
theorem charGroups_inGroup {text : List Char} (htext : ∀ ch ∈ text, ch ∈ ' ' :: alphabet) :
    ∀ g ∈ text.map charGroup, (∀ x ∈ g, InGroup x) ∧ g.length ≤ 7 := by
  intro g hg
  rcases List.mem_map.mp hg with ⟨ch, hch, rfl⟩
  exact charGroup_inGroup ch (htext ch hch)

/-- The decoder appends the characters of a text for its groups. -/
theorem flatMap_groupChars_text {text : List Char} (htext : ∀ ch ∈ text, ch ∈ ' ' :: alphabet) :
    (text.map charGroup).flatMap groupChars = text := by
  induction text with
  | nil => rfl
  | cons ch text ih =>
      rw [List.map_cons, List.flatMap_cons, groupChars_charGroup ch (htext ch List.mem_cons_self),
        ih fun ch' hch' => htext ch' (List.mem_cons_of_mem ch hch')]
      rfl

/-- On a started array that holds the groups of a text, the decoder leaves the
text in `code`. -/
theorem inverseTranslate_text {text : List Char} (hne : text ≠ [])
    (htext : ∀ ch ∈ text, ch ∈ ' ' :: alphabet) (hlen : text.length ≤ 31) {a rest : List Int}
    (ha : a.length = 200)
    (hdrop : a = MORSE_START :: (joinGroups (text.map charGroup) ++ MORSE_FINSH :: rest)) :
    inverseTranslate a = some (WriteBuffer.holding '~' 31 text) := by
  rw [inverseTranslate_joinGroups (by simpa using hne) (charGroups_inGroup htext) (Or.inl rfl) ha
      hdrop,
    flatMap_groupChars_text htext, WriteBuffer.putAll_cleared, if_pos hlen]

/-- On an array of zeros the decoder leaves `code` as it was cleared. -/
theorem inverseTranslate_zeros :
    inverseTranslate (List.replicate 200 MORSE_FINSH) =
      some (WriteBuffer.holding '~' 31 []) := by
  decide

/-! ## Reception -/

/-- Recognising any transmission of a text leaves exactly the text in `code`,
followed only by `~`, as long as at most 199 symbols are produced and the text
has at most 31 characters. -/
theorem recognize_transmission (words : List (Word alphabet)) {En : List Int}
    (hEn : Transmission (keying words) En)
    (hsymbols : (producedFrom morseProcessOnce En).length ≤ 199)
    (htext : (textOf words).length ≤ 31) (m₀ n₀ : Int) :
    ∃ code, recognize m₀ n₀ En = some code ∧
      code.cells = textOf words ++ List.replicate (31 - (textOf words).length) '~' := by
  have hjud := decisionLoop_jud morseProcessOnce m₀ n₀ En
  rw [if_pos (Nat.le_succ_of_le hsymbols), Option.map_eq_some_iff] at hjud
  rcases hjud with ⟨s, hs, hcells⟩
  refine ⟨WriteBuffer.holding '~' 31 (textOf words), ?_, rfl⟩
  have hrun : recognize m₀ n₀ En = inverseTranslate s.jud.cells := by
    simp [recognize, hs]
  rw [hrun, hcells, WriteBuffer.holding_cells]
  cases words with
  | nil =>
      rw [producedFrom_once, hEn.onceSymbols_nil]
      exact inverseTranslate_zeros
  | cons w ws =>
      rcases keying_cons w ws with ⟨mk, rest, hkeys, hlead⟩
      have hne : textOf (w :: ws) ≠ [] := by
        simp [textOf, w.letters_ne_nil]
      have hstream : producedFrom morseProcessOnce En =
          MORSE_START :: joinGroups ((textOf (w :: ws)).map charGroup) := by
        rw [hkeys] at hEn
        rw [producedFrom_once, hEn.onceSymbols_cons hlead, ← hkeys,
          keying_symbols fun ch hch => hch]
      obtain ⟨zeros, hzeros⟩ : ∃ z, 200 - (producedFrom morseProcessOnce En).length = z + 1 :=
        ⟨199 - (producedFrom morseProcessOnce En).length, by omega⟩
      have hlength : (producedFrom morseProcessOnce En ++ List.replicate
          (200 - (producedFrom morseProcessOnce En).length) MORSE_FINSH).length = 200 := by
        simp only [List.length_append, List.length_replicate]
        omega
      apply inverseTranslate_text hne (fun ch hch => mem_textOf hch) htext hlength
      rw [hzeros, hstream]
      rfl

/-- A key as a silence and a tone of given lengths. -/
theorem Transmission.key_frames {k : Key} {keys : List Key} {gap mark : Nat} {rest : List Int}
    (hgap : k.gap.FrameCount gap) (hmark : k.mark.FrameCount mark)
    (hrest : Transmission keys rest) :
    Transmission (k :: keys) (List.replicate gap 0 ++ (List.replicate mark 2000000 ++ rest)) := by
  refine .key ?_ ?_ ?_ ?_ hrest
  · intro en hen
    rw [(List.mem_replicate.mp hen).2]
    decide
  · rwa [List.length_replicate]
  · intro en hen
    rw [(List.mem_replicate.mp hen).2]
    decide
  · rwa [List.length_replicate]

/-- The text `AE T`: a gap of each class. -/
theorem recognize_transmission_AE_T :
    let En : List Int := List.replicate 2 0 ++ (List.replicate 10 2000000 ++
      (List.replicate 3 0 ++ (List.replicate 40 2000000 ++
        (List.replicate 10 0 ++ (List.replicate 20 2000000 ++
          (List.replicate 30 0 ++ (List.replicate 36 2000000 ++ [0])))))))
    ∃ code, recognize 0 0 En = some code ∧
      code.cells = ['A', 'E', ' ', 'T'] ++ List.replicate 27 '~' := by
  intro En
  let words : List (Word alphabet) :=
    [⟨['A', 'E'], by decide, by decide⟩, ⟨['T'], by decide, by decide⟩]
  have hkeys : keying words =
      [⟨.lead, .dot⟩, ⟨.element, .dash⟩, ⟨.letter, .dot⟩, ⟨.word, .dash⟩] := by decide
  have hkeying : Transmission (keying words) En := by
    rw [hkeys]
    refine .key_frames trivial ⟨by decide, by decide⟩ ?_
    refine .key_frames ⟨by decide, by decide⟩ ⟨by decide, by decide⟩ ?_
    refine .key_frames ⟨by decide, by decide⟩ ⟨by decide, by decide⟩ ?_
    refine .key_frames (Nat.le_of_ble_eq_true rfl) ⟨by decide, by decide⟩ ?_
    refine .trailing (List.cons_ne_nil 0 []) ?_
    unfold Silent
    decide
  exact recognize_transmission words hkeying (by decide) (by decide) 0 0

end Ls2kMorse
