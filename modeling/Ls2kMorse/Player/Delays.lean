import Ls2kMorse.Player.Playback

/-!
# The delays of the playback loop

Every delay of the loop is a constant divided by the speed, which comes from the
command line as it is.  The quotients are positive and in the order of their
classes for the speeds from 1 to 200 and for no other speed.

Main results:

- Theorem `toneAt_dot_pos_iff`: the speeds at which a dot is heard.
- Theorem `keysOrdered_soundingAt`: at the speeds from 1 to 200 the delays are ordered.
- Theorem `delaysOrdered_iff`: the speeds at which every delay is defined and what is
  played is ordered by the classes of tones and silences.
-/

namespace Ls2kMorse
namespace Player

/-- What the delay expressions of the loop divide by the speed. -/
def delayNumerators : List Int :=
  [600, 400, MORSE_DIAN.toNat * 2, MORSE_HUA.toNat * 2, 200]

/-- The delays of a played text, a silence and a tone for each of its keys, are ordered by
the classes of the keys. -/
structure KeysOrdered (keys : List Key) (played : List (Int × Int)) : Prop where
  /-- Every key is played. -/
  length_eq : played.length = keys.length
  dot_pos : ∀ p ∈ keys.zip played, p.1.mark = .dot → 0 < p.2.2
  dot_lt_dash : ∀ p ∈ keys.zip played, ∀ q ∈ keys.zip played,
    p.1.mark = .dot → q.1.mark = .dash → p.2.2 < q.2.2
  element_lt_letter : ∀ p ∈ keys.zip played, ∀ q ∈ keys.zip played,
    p.1.gap = .element → q.1.gap = .letter → p.2.1 < q.2.1
  letter_lt_word : ∀ p ∈ keys.zip played, ∀ q ∈ keys.zip played,
    p.1.gap = .letter → q.1.gap = .word → p.2.1 < q.2.1

/-- At this speed no delay expression is undefined or negative, on the array `m` the loop
waits for no negative or undefined time, and what it plays for the words of a text is
ordered by the classes of tones and silences. -/
structure DelaysOrdered (speed : Int) (m : List UInt16) : Prop where
  defined : ∀ x ∈ delayNumerators, ∃ d, cdiv x speed = some d ∧ 0 ≤ d
  played : ∃ timeline, playback speed m = some timeline ∧ ∀ segment ∈ timeline, 0 ≤ segment.ms
  ordered : ∀ (words : List (Word alphabet)) (rest : List UInt16), ∃ timeline,
    playback speed ((textOf words).flatMap symbolsOf ++ 0 :: rest) = some timeline ∧
      KeysOrdered (keying words) (soundings 0 timeline)

/-- A dot takes time at the speeds from 1 to 200. -/
theorem toneAt_dot_pos_iff {speed : Int} : 0 < toneAt speed .dot ↔ 1 ≤ speed ∧ speed ≤ 200 := by
  have htone : toneAt speed .dot = Int.tdiv 200 speed := rfl
  rw [htone]
  constructor
  · intro hdot
    by_contra hrange
    by_cases hpos : 1 ≤ speed
    · have hzero : Int.tdiv 200 speed = 0 := Int.tdiv_eq_zero_of_lt (by decide) (by omega)
      omega
    · have hneg : Int.tdiv 200 speed ≤ 0 :=
        Int.tdiv_nonpos_of_nonneg_of_nonpos (by decide) (by omega)
      omega
  · rintro ⟨hpos, hle⟩
    rw [Int.tdiv_eq_ediv_of_nonneg (by decide)]
    exact (Int.le_ediv_iff_mul_le (by omega)).mpr (by omega)

/-- Three quotients of 200 fit in the one of 600. -/
theorem dash_ge_dots {speed : Int} (hpos : 1 ≤ speed) :
    3 * Int.tdiv 200 speed ≤ Int.tdiv 600 speed := by
  have hmul : Int.tdiv 200 speed * speed ≤ 200 := by
    rw [Int.tdiv_eq_ediv_of_nonneg (by decide)]
    exact Int.ediv_mul_le 200 (by omega)
  rw [Int.tdiv_eq_ediv_of_nonneg (a := 600) (by decide), Int.le_ediv_iff_mul_le (by omega),
    Int.mul_assoc]
  omega

/-- A positive speed delays by no negative time. -/
theorem segmentsAt_nonneg {speed : Int} (hpos : 1 ≤ speed) (v : UInt16) :
    ∀ segment ∈ segmentsAt speed v, 0 ≤ segment.ms := by
  have hdelay : ∀ x : Int, 0 ≤ x → 0 ≤ Int.tdiv x speed :=
    fun x hx => Int.tdiv_nonneg hx (by omega)
  intro segment hsegment
  unfold segmentsAt at hsegment
  split_ifs at hsegment <;> simp only [List.mem_cons, List.not_mem_nil, or_false] at hsegment
  · rw [hsegment]
    exact hdelay 600 (by decide)
  · rw [hsegment]
    exact hdelay 400 (by decide)
  · rcases hsegment with rfl | rfl
    · exact hdelay _ (by omega)
    · exact hdelay 200 (by decide)

/-- The delays that the class of a key stands for are in the order of the classes at the
speeds from 1 to 200. -/
theorem keysOrdered_soundingAt {speed : Int} (hrange : 1 ≤ speed ∧ speed ≤ 200)
    (keys : List Key) : KeysOrdered keys (keys.map (soundingAt speed)) := by
  have hdot : 0 < Int.tdiv 200 speed := toneAt_dot_pos_iff.mpr hrange
  have hdash := dash_ge_dots hrange.1
  have hspace : 0 ≤ Int.tdiv 400 speed := Int.tdiv_nonneg (by decide) (by omega)
  have hmem : ∀ p ∈ keys.zip (keys.map (soundingAt speed)), p.2 = soundingAt speed p.1 := by
    intro p hp
    rw [← List.map_prod_left_eq_zip] at hp
    rcases List.mem_map.mp hp with ⟨key, -, rfl⟩
    rfl
  refine ⟨List.length_map _, ?_, ?_, ?_, ?_⟩
  · intro p hp hmark
    rw [hmem p hp, soundingAt, hmark]
    exact hdot
  · intro p hp q hq hmark hmark'
    rw [hmem p hp, hmem q hq, soundingAt, soundingAt, hmark, hmark']
    simp only [toneAt]
    omega
  · intro p hp q hq hgap hgap'
    rw [hmem p hp, hmem q hq, soundingAt, soundingAt, hgap, hgap']
    simp only [silenceAt]
    omega
  · intro p hp q hq hgap hgap'
    rw [hmem p hp, hmem q hq, soundingAt, soundingAt, hgap, hgap']
    simp only [silenceAt]
    omega

/-- The letter `E`, a single dot, takes time at the speeds from 1 to 200 only. -/
theorem speed_range_of_ordered {speed : Int} {m : List UInt16} (h : DelaysOrdered speed m) :
    1 ≤ speed ∧ speed ≤ 200 := by
  have hspeed : speed ≠ 0 := by
    rintro rfl
    rcases h.defined 600 (by simp [delayNumerators]) with ⟨d, hd, -⟩
    exact absurd hd (by simp [cdiv])
  rcases h.ordered [⟨['E'], by decide, by decide⟩] [] with ⟨timeline, hplay, hkeys⟩
  rw [playback_eq hspeed (zero_not_mem_symbolsOf _), Option.some.injEq] at hplay
  have hsoundings := soundings_keyingAt speed (fun _ hch => hch : ∀ ch ∈ alphabet, ch ∈ alphabet)
    [⟨['E'], by decide, by decide⟩]
  rw [← hplay, hsoundings] at hkeys
  exact toneAt_dot_pos_iff.mp (hkeys.dot_pos (⟨.lead, .dot⟩, soundingAt speed ⟨.lead, .dot⟩)
    List.mem_cons_self rfl)

/-- For every speed and every text, whatever lies behind its symbols and their
zero: no delay of the loop is undefined or negative, and on the timelines that it plays
a dot is positive and shorter than a dash, and the silences are ordered by their gaps,
if and only if the speed lies between 1 and 200. -/
theorem delaysOrdered_iff (speed : Int) (text : List Char) (rest : List UInt16) :
    DelaysOrdered speed (text.flatMap symbolsOf ++ 0 :: rest) ↔ 1 ≤ speed ∧ speed ≤ 200 := by
  constructor
  · exact speed_range_of_ordered
  · intro hrange
    have hpos := hrange.1
    have hspeed : speed ≠ 0 := by omega
    refine ⟨?_, ⟨_, playback_eq hspeed (zero_not_mem_symbolsOf text) rest, ?_⟩, ?_⟩
    · intro x hx
      have hx0 : 0 ≤ x := by
        revert x
        decide
      exact ⟨Int.tdiv x speed, if_neg hspeed, Int.tdiv_nonneg hx0 (by omega)⟩
    · intro segment hsegment
      rcases List.mem_flatMap.mp hsegment with ⟨v, -, hv⟩
      exact segmentsAt_nonneg hpos v segment hv
    · intro words rest'
      refine ⟨_, playback_eq hspeed (zero_not_mem_symbolsOf (textOf words)) rest', ?_⟩
      rw [soundings_keyingAt speed (fun _ hch => hch) words]
      exact keysOrdered_soundingAt hrange (keying words)

/-- With the speed 0 the first delay divides by zero. -/
theorem delaysOrdered_speed_zero :
    playback 0 (['E'].flatMap symbolsOf ++ [0]) = none ∧
      ¬ DelaysOrdered 0 (['E'].flatMap symbolsOf ++ [0]) := by
  have hplay : playback 0 (['E'].flatMap symbolsOf ++ [0]) = none := by decide
  refine ⟨hplay, ?_⟩
  intro h
  rcases h.played with ⟨timeline, htimeline, -⟩
  rw [hplay] at htimeline
  exact absurd htimeline (Option.some_ne_none timeline).symm

end Player
end Ls2kMorse
