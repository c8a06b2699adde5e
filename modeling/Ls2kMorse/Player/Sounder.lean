import Ls2kMorse.Player.Bounds
import Ls2kMorse.Player.Playback
import Ls2kMorse.Pwm.Driver

/-!
# The player on its timer

The commands of the player sound a text through the functions of `sound.c`, which set,
enable and disable the second PWM timer.  The module runs the loops of the commands on
the registers of the timers: every delay is a stretch of time with the registers as
they are, and what can be heard of it is read off the registers.

Main results:

- Theorem `playCells_segments`: what is heard is the timeline of tones and silences.
- Theorem `playCells_sounder`: every tone has the period that was asked for, and the
  other timers are left alone.
- Theorem `morsePlayOnce_sounds`: a typed text is heard as its keys.
- Theorem `morsePlayTest_sounds`: so is the text of the demonstration, before what lies
  behind it in memory.
-/

namespace Ls2kMorse
namespace Player

open Pwm

/-! ## Functions of `sound.c` -/

/-- The channel that the sounder hangs on. -/
def SOUND_PWM_CH_1 : Channel := 1

/-- `sound_on`: enables the channel. -/
def soundOn (s : Registers) : Registers :=
  (loongsonPwmIoctl s ⟨.enable, ⟨SOUND_PWM_CH_1, 0, 0⟩⟩).2

/-- `sound_off`: disables the channel. -/
def soundOff (s : Registers) : Registers :=
  (loongsonPwmIoctl s ⟨.disable, ⟨SOUND_PWM_CH_1, 0, 0⟩⟩).2

/-- The period and the pulse of `sound_set`, in nanoseconds. -/
def soundPulse (freq : BitVec 16) (volume : BitVec 8) : BitVec 32 × BitVec 32 :=
  if freq = 0 then (1000000, 0)
  else
    let period := 1000000000 / freq.setWidth 32
    (period, period - period / 100 * volume.setWidth 32)

/-- `sound_set`: the period and the pulse of a frequency and a volume. -/
def soundSet (freq : BitVec 16) (volume : BitVec 8) (s : Registers) : Registers :=
  let (period, pulse) := soundPulse freq volume
  (loongsonPwmIoctl s ⟨.set, ⟨SOUND_PWM_CH_1, period, pulse⟩⟩).2

/-! ## The loops of the commands -/

/-- A delay and the registers of the timers while it lasts. -/
structure Span where
  pwm : Registers
  ms : Int

/-- The delays of a loop: for a separator, a space, a tone and behind a tone. -/
structure Tempo where
  letter : Option Int
  word : Option Int
  tone : UInt16 → Option Int
  element : Option Int

/-- The delays of `morse_play_once`. -/
def Tempo.once (speed : Int) : Tempo where
  letter := cdiv 600 speed
  word := cdiv 400 speed
  tone v := cdiv (v.toNat * 2) speed
  element := cdiv 200 speed

/-- The delays of `morse_play_test`. -/
def Tempo.test : Tempo where
  letter := some 300
  word := some 200
  tone v := some v.toNat
  element := some 100

/-- The branches of a loop on one symbol. -/
def playCell (tempo : Tempo) (freq : BitVec 16) (v : UInt16) (s : Registers) :
    Option (List Span × Registers) :=
  if v = 3000 then do
    let s := soundOff s
    let d ← tempo.letter
    some ([⟨s, d⟩], s)
  else if v = 7000 then do
    let s := soundOff s
    let d ← tempo.word
    some ([⟨s, d⟩], s)
  else if v = 100 ∨ v = 300 then do
    let s := soundSet freq 50 s
    let s := soundOn s
    let d ← tempo.tone v
    let s' := soundOff s
    let g ← tempo.element
    some ([⟨s, d⟩, ⟨s', g⟩], s')
  else some ([], s)

/-- The `while` loop on the array from `morse_code[i]` on. -/
def playCells (tempo : Tempo) (freq : BitVec 16) :
    List UInt16 → Registers → Option (List Span × Registers)
  | [], _ => none
  | v :: morseCode, s =>
      if v ≠ 0 then do
        let (spans, s) ← playCell tempo freq v s
        let (rest, s) ← playCells tempo freq morseCode s
        some (spans ++ rest, s)
      else some ([], s)

/-- The text that `morse_play_test` plays. -/
def demonstration : List Char :=
  "WO AI LUO SHAN JI HU REN".toList

/-- `morse_play_test`, which reads past the end of its text: `behind` is what lies
there. -/
def morsePlayTest (past : Past) (behind : Fin 6 → Char) (s : Registers) :
    Option (List Span × Registers) := do
  let morseCode ← translate past (demonstration ++ NUL :: List.ofFn behind)
  playCells .test 3000 morseCode.cells s

/-! ## What is heard -/

/-- The timer of the sounder. -/
def sounder (s : Registers) : Timer :=
  s.timer (chipOf SOUND_PWM_CH_1)

/-- What is heard during a span, and how long. -/
def Span.segment (span : Span) : Segment :=
  ⟨(sounder span.pwm).heard, span.ms⟩

@[simp]
theorem sounder_soundOn (s : Registers) :
    sounder (soundOn s) = { sounder s with routed := true, running := true } := by
  simp [sounder, soundOn, loongsonPwmIoctl, timer_enable]

@[simp]
theorem sounder_soundOff (s : Registers) :
    sounder (soundOff s) = { sounder s with running := false } := by
  simp [sounder, soundOff, loongsonPwmIoctl, timer_disable]

@[simp]
theorem sounder_soundSet (freq : BitVec 16) (volume : BitVec 8) (s : Registers) :
    sounder (soundSet freq volume s) =
      { sounder s with
        running := true
        period := (soundPulse freq volume).1
        pulse := (soundPulse freq volume).2 } := by
  simp [sounder, soundSet, loongsonPwmIoctl, timer_set]

/-- Off, nothing is heard. -/
@[simp]
theorem segment_soundOff (s : Registers) (ms : Int) :
    Span.segment ⟨soundOff s, ms⟩ = ⟨false, ms⟩ := by
  simp [Span.segment, Timer.heard]

/-- On, something is heard. -/
@[simp]
theorem segment_soundOn (s : Registers) (ms : Int) :
    Span.segment ⟨soundOn s, ms⟩ = ⟨true, ms⟩ := by
  simp [Span.segment, Timer.heard]

/-- The demonstration has the delays of speed 2. -/
theorem Tempo.test_eq : Tempo.test = Tempo.once 2 := by
  have htone : ∀ v : UInt16, some (v.toNat : Int) = cdiv (v.toNat * 2) 2 := by
    intro v
    rw [cdiv, if_neg (by decide), Int.mul_tdiv_cancel _ (by decide)]
  simp only [Tempo.test, Tempo.once, Tempo.mk.injEq]
  exact ⟨rfl, rfl, funext htone, rfl⟩

section Loop

variable (speed : Int) (freq : BitVec 16)

/-- What is heard of a symbol is what the playback says. -/
theorem playCell_segments (v : UInt16) (s : Registers) :
    (playCell (.once speed) freq v s).map (fun r => r.1.map Span.segment) =
      playSymbol speed v := by
  unfold playCell playSymbol
  split_ifs
  · cases h : cdiv 600 speed <;> simp [Tempo.once, h]
  · cases h : cdiv 400 speed <;> simp [Tempo.once, h]
  · cases htone : cdiv (v.toNat * 2) speed with
    | none => simp [Tempo.once, htone]
    | some d => cases h : cdiv 200 speed <;> simp [Tempo.once, htone, h]
  · simp

/-- On the registers the loop sounds the timeline of tones and silences, for every
speed, frequency and content of the array. -/
theorem playCells_segments (morseCode : List UInt16) (s : Registers) :
    (playCells (.once speed) freq morseCode s).map (fun r => r.1.map Span.segment) =
      playback speed morseCode := by
  induction morseCode generalizing s with
  | nil => rfl
  | cons v morseCode ih =>
      by_cases hv : v = 0
      · simp [playCells, playback, hv]
      · have hcell := playCell_segments speed freq v s
        rw [playCells, playback, if_pos hv, if_pos hv, ← hcell]
        cases hplay : playCell (.once speed) freq v s with
        | none => rfl
        | some r =>
            have hrest := ih r.2
            cases hloop : playCells (.once speed) freq morseCode r.2 with
            | none => simp [hloop] at hrest ⊢; simp [← hrest]
            | some r' => simp [hloop] at hrest ⊢; simp [← hrest]

end Loop

/-! ## What happens to the timers -/

/-- The timers but the sounder's are the same. -/
def SameOthers (s s' : Registers) : Prop :=
  ∀ c, c ≠ chipOf SOUND_PWM_CH_1 → s'.timer c = s.timer c

/-- Nothing changes without a call. -/
theorem SameOthers.refl (s : Registers) : SameOthers s s :=
  fun _ _ => rfl

/-- Leaving the other channels alone is transitive. -/
theorem SameOthers.trans {s s' s'' : Registers} (h : SameOthers s s') (h' : SameOthers s' s'') :
    SameOthers s s'' :=
  fun c hc => (h' c hc).trans (h c hc)

/-- `sound_on` leaves the other channels alone. -/
theorem sameOthers_soundOn (s : Registers) : SameOthers s (soundOn s) := by
  intro c hc
  simp [soundOn, loongsonPwmIoctl, timer_enable, hc]

/-- `sound_off` leaves the other channels alone. -/
theorem sameOthers_soundOff (s : Registers) : SameOthers s (soundOff s) := by
  intro c hc
  simp [soundOff, loongsonPwmIoctl, timer_disable, hc]

/-- `sound_set` leaves the other channels alone. -/
theorem sameOthers_soundSet (freq : BitVec 16) (volume : BitVec 8) (s : Registers) :
    SameOthers s (soundSet freq volume s) := by
  intro c hc
  simp [soundSet, loongsonPwmIoctl, timer_set, hc]

/-- What is heard has the period and the pulse of a frequency, the other timers stay as
they are, and in the end nothing is heard. -/
structure Sounds (freq : BitVec 16) (s : Registers) (spans : List Span) (s' : Registers) :
    Prop where
  tone : ∀ span ∈ spans, span.segment.on = true →
    ((sounder span.pwm).period, (sounder span.pwm).pulse) = soundPulse freq 50
  others : ∀ span ∈ spans, SameOthers s span.pwm
  others_end : SameOthers s s'
  silent_end : spans ≠ [] → (sounder s').heard = false
  unchanged : spans = [] → s' = s

section Sounds

variable {freq : BitVec 16}

/-- No spans without a call. -/
theorem Sounds.nil (s : Registers) : Sounds freq s [] s where
  tone _ h := absurd h List.not_mem_nil
  others _ h := absurd h List.not_mem_nil
  others_end := SameOthers.refl s
  silent_end h := absurd rfl h
  unchanged _ := rfl

/-- Spans follow each other. -/
theorem Sounds.append {s s' s'' : Registers} {spans spans' : List Span}
    (h : Sounds freq s spans s') (h' : Sounds freq s' spans' s'') :
    Sounds freq s (spans ++ spans') s'' where
  tone span hspan := by
    rcases List.mem_append.mp hspan with hspan | hspan
    · exact h.tone span hspan
    · exact h'.tone span hspan
  others span hspan := by
    rcases List.mem_append.mp hspan with hspan | hspan
    · exact h.others span hspan
    · exact h.others_end.trans (h'.others span hspan)
  others_end := h.others_end.trans h'.others_end
  silent_end hne := by
    by_cases hnil : spans' = []
    · rw [h'.unchanged hnil]
      apply h.silent_end
      rwa [hnil, List.append_nil] at hne
    · exact h'.silent_end hnil
  unchanged hnil := by
    rcases List.append_eq_nil_iff.mp hnil with ⟨hnil, hnil'⟩
    rw [h'.unchanged hnil', h.unchanged hnil]

/-- A delay with the sound off. -/
theorem Sounds.pause (s : Registers) (ms : Int) :
    Sounds freq s [⟨soundOff s, ms⟩] (soundOff s) where
  tone span hspan hon := by
    rw [List.mem_singleton.mp hspan, segment_soundOff] at hon
    exact absurd hon Bool.false_ne_true
  others span hspan := by
    rw [List.mem_singleton.mp hspan]
    exact sameOthers_soundOff s
  others_end := sameOthers_soundOff s
  silent_end _ := by simp [Timer.heard]
  unchanged h := absurd h (List.cons_ne_nil _ _)

/-- A tone and the pause behind it. -/
theorem Sounds.mark (s : Registers) (ms gap : Int) :
    Sounds freq s
      [⟨soundOn (soundSet freq 50 s), ms⟩, ⟨soundOff (soundOn (soundSet freq 50 s)), gap⟩]
      (soundOff (soundOn (soundSet freq 50 s))) where
  tone span hspan hon := by
    rcases List.mem_pair.mp hspan with rfl | rfl
    · simp
    · rw [segment_soundOff] at hon
      exact absurd hon Bool.false_ne_true
  others span hspan := by
    have hon := (sameOthers_soundSet freq 50 s).trans (sameOthers_soundOn _)
    rcases List.mem_pair.mp hspan with rfl | rfl
    · exact hon
    · exact hon.trans (sameOthers_soundOff _)
  others_end :=
    ((sameOthers_soundSet freq 50 s).trans (sameOthers_soundOn _)).trans (sameOthers_soundOff _)
  silent_end _ := by simp [Timer.heard]
  unchanged h := absurd h (List.cons_ne_nil _ _)

/-- A symbol is played on the channel of the sounder. -/
theorem playCell_sounder (tempo : Tempo) (v : UInt16) {s s' : Registers} {spans : List Span}
    (h : playCell tempo freq v s = some (spans, s')) : Sounds freq s spans s' := by
  unfold playCell at h
  split_ifs at h
  · simp only [Option.bind_eq_bind, Option.bind_eq_some_iff, Option.some.injEq,
      Prod.mk.injEq] at h
    rcases h with ⟨d, -, rfl, rfl⟩
    exact Sounds.pause s d
  · simp only [Option.bind_eq_bind, Option.bind_eq_some_iff, Option.some.injEq,
      Prod.mk.injEq] at h
    rcases h with ⟨d, -, rfl, rfl⟩
    exact Sounds.pause s d
  · simp only [Option.bind_eq_bind, Option.bind_eq_some_iff, Option.some.injEq,
      Prod.mk.injEq] at h
    rcases h with ⟨d, -, g, -, rfl, rfl⟩
    exact Sounds.mark s d g
  · simp only [Option.some.injEq, Prod.mk.injEq] at h
    rcases h with ⟨rfl, rfl⟩
    exact Sounds.nil s

/-- In every run of a loop what is heard has the frequency of the loop, and the other
timers stay as they are. -/
theorem playCells_sounder (tempo : Tempo) {morseCode : List UInt16} {s s' : Registers}
    {spans : List Span} (h : playCells tempo freq morseCode s = some (spans, s')) :
    Sounds freq s spans s' := by
  induction morseCode generalizing s spans with
  | nil => simp [playCells] at h
  | cons v morseCode ih =>
      unfold playCells at h
      split_ifs at h
      · simp only [Option.bind_eq_bind, Option.bind_eq_some_iff, Option.some.injEq,
          Prod.mk.injEq, Prod.exists] at h
        rcases h with ⟨first, s₁, hcell, rest, s₂, hrest, rfl, rfl⟩
        exact (playCell_sounder tempo v hcell).append (ih hrest)
      · simp only [Option.some.injEq, Prod.mk.injEq] at h
        rcases h with ⟨rfl, rfl⟩
        exact Sounds.nil s

end Sounds

/-- A run of a loop from the timeline it sounds. -/
theorem exists_playCells {speed : Int} (freq : BitVec 16) {morseCode : List UInt16}
    {timeline : List Segment} (s : Registers) (h : playback speed morseCode = some timeline) :
    ∃ spans s', playCells (.once speed) freq morseCode s = some (spans, s') ∧
      spans.map Span.segment = timeline ∧ Sounds freq s spans s' := by
  have hsegments := playCells_segments speed freq morseCode s
  rw [h, Option.map_eq_some_iff] at hsegments
  rcases hsegments with ⟨⟨spans, s'⟩, hplay, htimeline⟩
  exact ⟨spans, s', hplay, htimeline, playCells_sounder _ hplay⟩

/-! ## Typed texts -/

/-- The silence behind the last tone of a timeline. -/
def silenceBehind : Int → List Segment → Int
  | off, [] => off
  | _, ⟨true, _⟩ :: rest => silenceBehind 0 rest
  | off, ⟨false, ms⟩ :: rest => silenceBehind (off + ms) rest

/-- One timeline after another. -/
theorem soundings_append (off : Int) (xs ys : List Segment) :
    soundings off (xs ++ ys) = soundings off xs ++ soundings (silenceBehind off xs) ys := by
  fun_induction soundings off xs with
  | case1 => rfl
  | case2 off ms rest ih => simp [soundings, silenceBehind, ih]
  | case3 off ms rest ih => simp [soundings, silenceBehind, ih]

/-- The words of the demonstration. -/
def demonstrationWords : List (Word capitals) :=
  [⟨"WO".toList, by decide, by decide⟩, ⟨"AI".toList, by decide, by decide⟩,
    ⟨"LUO".toList, by decide, by decide⟩, ⟨"SHAN".toList, by decide, by decide⟩,
    ⟨"JI".toList, by decide, by decide⟩, ⟨"HU".toList, by decide, by decide⟩,
    ⟨"REN".toList, by decide, by decide⟩]

/-- The words of the demonstration are its text. -/
theorem textOf_demonstrationWords : textOf demonstrationWords = demonstration := by
  decide

/-- A table has at most eight symbols. -/
theorem length_symbolsOf_le_eight (ch : Char) : (symbolsOf ch).length ≤ 8 := by
  unfold symbolsOf
  cases hcase : caseTable ch with
  | none => simp
  | some table => simpa using (caseTable_bounds hcase).1

/-- The demonstration fits the array, whatever lies behind its text. -/
theorem length_demonstration_le {behind : List Char} (hlen : behind.length = 6) :
    ((demonstration ++ NUL :: behind).flatMap symbolsOf).length ≤ 199 := by
  have htext : (demonstration.flatMap symbolsOf).length ≤ 24 * 5 := by
    rw [← textOf_demonstrationWords]
    exact length_flatMap_symbolsOf_le demonstrationWords
  have hbehind : (behind.flatMap symbolsOf).length ≤ 6 * 8 := by
    rw [List.length_flatMap, ← hlen, ← List.length_map (fun ch => (symbolsOf ch).length)]
    apply List.sum_le_card_nsmul
    intro n hn
    rcases List.mem_map.mp hn with ⟨ch, -, rfl⟩
    exact length_symbolsOf_le_eight ch
  have hnul : symbolsOf NUL = [] := rfl
  rw [List.flatMap_append, List.flatMap_cons, hnul, List.length_append, List.nil_append]
  omega

/-- Whatever lies behind its text in memory, the demonstration is heard as the keys of
its text at speed 2, followed by what the six characters behind its end stand for. -/
theorem morsePlayTest_sounds {past : Past} (hpast : past.ZeroTerminated) (behind : Fin 6 → Char)
    (s : Registers) :
    ∃ spans s', morsePlayTest past behind s = some (spans, s') ∧
      soundings 0 (spans.map Span.segment) =
        (keying demonstrationWords).map (soundingAt 2) ++
          soundings (silenceAt 2 .letter)
            (((List.ofFn behind).flatMap symbolsOf).flatMap (segmentsAt 2)) ∧
      Sounds 3000 s spans s' := by
  have hlen : (List.ofFn behind).length = 6 := List.length_ofFn
  have ha : (demonstration ++ NUL :: List.ofFn behind).length = 31 := by
    rw [List.length_append, List.length_cons, hlen]
    rfl
  have hfits := length_demonstration_le hlen
  have htranslate := translate_eq hpast ha
  rw [if_pos (Nat.le_succ_of_le hfits)] at htranslate
  obtain ⟨rest, hplay⟩ := playText_eq_playback hpast 2 ha hfits
  have hsymbols : 0 ∉ (demonstration ++ NUL :: List.ofFn behind).flatMap symbolsOf :=
    zero_not_mem_symbolsOf _
  rw [playback_eq (by decide) hsymbols] at hplay
  simp only [playText, htranslate, Option.bind_eq_bind, Option.bind_some] at hplay
  obtain ⟨spans, s', hrun, htimeline, hsounds⟩ :=
    exists_playCells 3000 s hplay
  refine ⟨spans, s', ?_, ?_, hsounds⟩
  · rw [morsePlayTest, Tempo.test_eq, htranslate, Option.bind_eq_bind, Option.bind_some]
    exact hrun
  · have hsub : ∀ ch ∈ capitals, ch ∈ alphabet := fun _ => List.mem_of_mem_take
    have hkeys := soundings_keyingAt 2 hsub demonstrationWords
    have hbehind : silenceBehind 0
        ((demonstration.flatMap symbolsOf).flatMap (segmentsAt 2)) = silenceAt 2 .letter := by
      decide
    have hnul : symbolsOf NUL = [] := rfl
    rw [textOf_demonstrationWords] at hkeys
    rw [htimeline, List.flatMap_append, List.flatMap_append, soundings_append, hkeys, hbehind,
      List.flatMap_cons, hnul, List.nil_append]

/-- The demonstration in front of six letters. -/
theorem morsePlayTest_sounds_letters :
    ∃ spans s', morsePlayTest (fun _ _ => some 0) (fun _ => 'E') ⟨0, fun _ => ⟨0, 0, 0⟩⟩ =
        some (spans, s') ∧
      soundings 0 (spans.map Span.segment) =
        (keying demonstrationWords).map (soundingAt 2) ++
          soundings (silenceAt 2 .letter)
            (((List.ofFn fun _ : Fin 6 => 'E').flatMap symbolsOf).flatMap (segmentsAt 2)) ∧
      Sounds 3000 ⟨0, fun _ => ⟨0, 0, 0⟩⟩ spans s' :=
  morsePlayTest_sounds (fun _ => rfl) (fun _ => 'E') _

end Player
end Ls2kMorse
