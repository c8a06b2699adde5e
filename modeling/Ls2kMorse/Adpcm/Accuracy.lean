import Ls2kMorse.Adpcm.RoundTrip
import Mathlib.Algebra.Order.Group.Int
import Mathlib.Algebra.BigOperators.Group.Finset.Basic
import Mathlib.Logic.Function.Iterate
import Mathlib.Tactic.Ring

/-!
# How close the decoded samples are

Without lookahead and without noise shaping each sample is coded by the first trial
of `minimum_error`, the magnitude of the distance in quarters of the step.

Main results:

- Theorem `approach_near` and theorem `approach_far`: the distance behind one sample.
- Theorem `decoded_error`: the distance of every decoded sample from its original.
- Theorem `decoded_settles`: a constant input is reached in 104 samples.
- Theorem `decoded_sum`: with static noise shaping the errors of a block add up to what
  the encoder carries.
-/

namespace Ls2kMorse
namespace Adpcm

/-! ## The tables -/

/-- The entry of the step table at an index. -/
def stepAt (index : Int) : Int :=
  stepTable[index.toNat]?.getD 0

/-- The step of a channel is the one of its index. -/
theorem Channel.step_eq (c : Channel) : c.step = stepAt c.index := by
  have hlt : c.index.toNat < 89 := by
    have h := c.index_range
    omega
  rw [stepAt, Vector.getElem?_eq_getElem hlt]
  rfl

/-- Every step lies between 7 and 32767. -/
theorem stepAt_range {index : Int} (h : 0 ≤ index ∧ index ≤ 88) :
    7 ≤ stepAt index ∧ stepAt index ≤ 32767 := by
  have htable : ∀ i : Fin 89, 7 ≤ stepAt i.val ∧ stepAt i.val ≤ 32767 := by decide
  have hi := htable ⟨index.toNat, by omega⟩
  rwa [Int.toNat_of_nonneg h.1] at hi

/-- The steps grow with the index. -/
theorem stepAt_le {i j : Nat} (hij : i ≤ j) (hj : j ≤ 88) : stepAt i ≤ stepAt j := by
  have htable : ∀ k : Fin 88, stepAt k.val ≤ stepAt (k.val + 1 : Nat) := by decide
  induction j, hij using Nat.le_induction with
  | base => exact le_refl _
  | succ k hk ih => exact (ih (by omega)).trans (htable ⟨k, by omega⟩)

/-- No code makes the step smaller than seven eighths of it. -/
theorem Channel.step_next (c : Channel) (code : UInt8) : 7 * c.step ≤ 8 * (c.next code).step := by
  have htable : ∀ i : Fin 89, 7 * stepAt i.val ≤ 8 * stepAt (i.val - 1 : Nat) := by decide
  have hindex : ∀ j : Fin 8, -1 ≤ indexTable.get j := by decide
  have hrange := c.index_range
  have hrange' := (c.next code).index_range
  have hnext : c.index.toNat - 1 ≤ (c.next code).index.toNat := by
    have hcode := hindex ⟨(code &&& 7).toNat, and_seven_lt code⟩
    simp only [next, CLIP]
    split_ifs <;> omega
  have hstep : 7 * stepAt c.index.toNat ≤ 8 * stepAt (c.index.toNat - 1 : Nat) :=
    htable ⟨c.index.toNat, by omega⟩
  have hle := stepAt_le hnext (by omega)
  rw [Int.toNat_of_nonneg hrange.1] at hstep
  rw [Int.toNat_of_nonneg hrange'.1] at hle
  rw [step_eq, step_eq]
  omega

/-! ## One sample -/

/-- What the magnitude `m` adds to the PCM value. -/
def trialDelta (step m : Int) : Int :=
  step / 8 + m % 2 * (step / 4) + m / 2 % 2 * (step / 2) + m / 4 * step

/-- A magnitude is one of eight numbers. -/
theorem magnitude_cases {m : Int} (h : 0 ≤ m ∧ m ≤ 7) :
    m = 0 ∨ m = 1 ∨ m = 2 ∨ m = 3 ∨ m = 4 ∨ m = 5 ∨ m = 6 ∨ m = 7 := by
  omega

/-- The difference of a code is `(2m + 1)/8` of the step, up to the three roundings. -/
theorem trialDelta_range (step : Int) {m : Int} (h : 0 ≤ m ∧ m ≤ 7) :
    (2 * m + 1) * step - 17 ≤ 8 * trialDelta step m ∧
      8 * trialDelta step m ≤ (2 * m + 1) * step := by
  unfold trialDelta
  rcases magnitude_cases h with rfl | rfl | rfl | rfl | rfl | rfl | rfl | rfl <;> omega

/-- The differences of the two codes with a given magnitude. -/
theorem Channel.delta_ofInt (c : Channel) {m : Int} (h : 0 ≤ m ∧ m ≤ 7) :
    c.delta (UInt8.ofInt m) = trialDelta c.step m ∧
      c.delta (8 ||| UInt8.ofInt m) = -trialDelta c.step m := by
  have hshift : ∀ k : Nat, c.step >>> k = c.step / 2 ^ k := fun k => Int.shiftRight_eq_div_pow _ _
  rcases magnitude_cases h with rfl | rfl | rfl | rfl | rfl | rfl | rfl | rfl <;>
    simp +decide [delta, trialDelta, hshift]

/-- The state behind the first trial for a sample. -/
def approach (x : Int) (c : Channel) : Channel :=
  c.next (c.greedy x)

/-- The magnitude of a distance in whole quarters of the step. -/
theorem Channel.magnitude_spec (c : Channel) {d : Int} (hd : 0 ≤ d) :
    (0 ≤ c.magnitude d ∧ c.magnitude d ≤ 7) ∧
      c.magnitude d * c.step ≤ 4 * d ∧ (d < 2 * c.step → 4 * d < (c.magnitude d + 1) * c.step) ∧
        (2 * c.step ≤ d → c.magnitude d = 7) := by
  have hstep := c.step_pos
  have hquot := Int.ediv_mul_le (4 * d) hstep.ne'
  have hrem := Int.lt_ediv_add_one_mul_self (4 * d) hstep
  have hmul : d <<< (2 : Nat) = 4 * d := by
    rw [Int.shiftLeft_eq, mul_comm]
    rfl
  refine ⟨c.magnitude_range hd, ?_⟩
  unfold magnitude
  simp only [hmul]
  split_ifs with hbig
  · have hseven : 8 * c.step ≤ 4 * d / c.step * c.step :=
      Int.mul_le_mul_of_nonneg_right (by omega) hstep.le
    exact ⟨by omega, fun hlt => by omega, fun _ => rfl⟩
  · refine ⟨hquot, fun _ => hrem, fun hfar => ?_⟩
    have hseven : 8 ≤ 4 * d / c.step := Int.le_ediv_of_mul_le hstep (by omega)
    omega

/-- Clipping does not lead away from a sample in range. -/
theorem abs_sub_CLIP_le {x : Int} (hx : InRange x) (y : Int) :
    |x - CLIP y (-32768) 32767| ≤ |x - y| := by
  unfold InRange at hx
  unfold CLIP
  split_ifs with hbig hsmall
  · rw [abs_of_nonpos (by omega : x - 32767 ≤ 0), abs_of_nonpos (by omega : x - y ≤ 0)]
    omega
  · rw [abs_of_nonneg (by omega : 0 ≤ x - -32768), abs_of_nonneg (by omega : 0 ≤ x - y)]
    omega
  · exact le_refl _

/-- The first trial goes towards the sample by the value of the magnitude. -/
theorem abs_approach_le {x : Int} (hx : InRange x) (c : Channel) :
    |x - (approach x c).pcmdata| ≤
      |(|x - c.pcmdata|) - trialDelta c.step (c.magnitude |x - c.pcmdata|)| := by
  have hclip := abs_sub_CLIP_le hx (c.pcmdata + c.delta (c.greedy x))
  refine hclip.trans (le_of_eq ?_)
  by_cases hneg : x - c.pcmdata < 0
  · have hdelta : c.delta (c.greedy x) =
        -trialDelta c.step (c.magnitude (-(x - c.pcmdata))) := by
      simp only [Channel.greedy, hneg, if_true]
      exact (c.delta_ofInt (c.magnitude_range (by omega))).2
    rw [hdelta, abs_of_neg hneg, ← abs_neg]
    congr 1
    ring
  · have hdelta : c.delta (c.greedy x) = trialDelta c.step (c.magnitude (x - c.pcmdata)) := by
      simp only [Channel.greedy, hneg, if_false]
      exact (c.delta_ofInt (c.magnitude_range (by omega))).1
    rw [hdelta, abs_of_nonneg (not_lt.mp hneg)]
    congr 1
    ring

/-- Less than two steps away, the distance behind a sample is about an eighth of the
step. -/
theorem approach_near {x : Int} (hx : InRange x) {c : Channel}
    (hnear : |x - c.pcmdata| < 2 * c.step) : 8 * |x - (approach x c).pcmdata| ≤ c.step + 17 := by
  rcases c.magnitude_spec (abs_nonneg (x - c.pcmdata)) with ⟨hrange, hlow, hhigh, -⟩
  have hquarter := hhigh hnear
  have htrial := trialDelta_range c.step hrange
  have hle := abs_approach_le hx c
  have hcentre : (2 * c.magnitude |x - c.pcmdata| + 1) * c.step =
      2 * (c.magnitude |x - c.pcmdata| * c.step) + c.step := by ring
  rw [add_mul, one_mul] at hquarter
  rw [hcentre] at htrial
  have hbound : 8 * |(|x - c.pcmdata|) - trialDelta c.step (c.magnitude |x - c.pcmdata|)| ≤
      c.step + 17 := by
    rcases abs_choice (|x - c.pcmdata| - trialDelta c.step (c.magnitude |x - c.pcmdata|)) with
      habs | habs <;> omega
  omega

/-- At least two steps away, the distance shrinks by nearly fifteen eighths of the
step. -/
theorem approach_far {x : Int} (hx : InRange x) {c : Channel}
    (hfar : 2 * c.step ≤ |x - c.pcmdata|) :
    8 * |x - (approach x c).pcmdata| ≤ 8 * |x - c.pcmdata| - 15 * c.step + 17 := by
  rcases c.magnitude_spec (abs_nonneg (x - c.pcmdata)) with ⟨-, -, -, hmag⟩
  have htrial := trialDelta_range c.step (by decide : (0 : Int) ≤ 7 ∧ (7 : Int) ≤ 7)
  have hle := abs_approach_le hx c
  have hstep := c.step_pos
  have hpos : 0 ≤ |x - c.pcmdata| - trialDelta c.step 7 := by omega
  rw [hmag hfar, abs_of_nonneg hpos] at hle
  omega

/-! ## The step index -/

/-- Small magnitudes lower the index by one, large ones raise it. -/
theorem Channel.index_next_ofInt (c : Channel) {m : Int} (h : 0 ≤ m ∧ m ≤ 7) :
    (c.next (UInt8.ofInt m)).index = CLIP (c.index + if m ≤ 3 then -1 else 2 * (m - 3)) 0 88 ∧
      (c.next (8 ||| UInt8.ofInt m)).index =
        CLIP (c.index + if m ≤ 3 then -1 else 2 * (m - 3)) 0 88 := by
  rcases magnitude_cases h with rfl | rfl | rfl | rfl | rfl | rfl | rfl | rfl <;>
    exact ⟨rfl, rfl⟩

/-- The index after a greedy step depends on the magnitude alone. -/
theorem approach_index (x : Int) (c : Channel) :
    (approach x c).index =
      CLIP (c.index + if c.magnitude |x - c.pcmdata| ≤ 3 then -1
        else 2 * (c.magnitude |x - c.pcmdata| - 3)) 0 88 := by
  unfold approach Channel.greedy
  by_cases hneg : x - c.pcmdata < 0
  · rw [abs_of_neg hneg]
    simp only [hneg, if_true]
    exact (c.index_next_ofInt (c.magnitude_range (by omega))).2
  · rw [abs_of_nonneg (not_lt.mp hneg)]
    simp only [hneg, if_false]
    exact (c.index_next_ofInt (c.magnitude_range (by omega))).1

/-- Less than a step away, the next index is smaller by one. -/
theorem approach_index_near {x : Int} {c : Channel} (hnear : |x - c.pcmdata| < c.step) :
    (approach x c).index = max (c.index - 1) 0 := by
  rcases c.magnitude_spec (abs_nonneg (x - c.pcmdata)) with ⟨-, hlow, -, -⟩
  have hmag : c.magnitude |x - c.pcmdata| ≤ 3 := by
    have hlt : c.magnitude |x - c.pcmdata| * c.step < 4 * c.step := by omega
    have hfour := lt_of_mul_lt_mul_right hlt c.step_pos.le
    omega
  have hrange := c.index_range
  rw [approach_index, if_pos hmag, CLIP]
  split_ifs <;> omega

/-- At least two steps away, the next index is larger by eight. -/
theorem approach_index_far {x : Int} {c : Channel} (hfar : 2 * c.step ≤ |x - c.pcmdata|) :
    (approach x c).index = min (c.index + 8) 88 := by
  rcases c.magnitude_spec (abs_nonneg (x - c.pcmdata)) with ⟨-, -, -, hmag⟩
  have hrange := c.index_range
  rw [approach_index, hmag hfar, CLIP]
  split_ifs <;> omega

/-! ## A constant input -/

/-- Less than a step away. -/
def Close (x : Int) (c : Channel) : Prop :=
  |x - c.pcmdata| < c.step

/-- The step gets no smaller than the distance. -/
theorem close_approach {x : Int} (hx : InRange x) {c : Channel}
    (hnear : |x - c.pcmdata| < 2 * c.step) : Close x (approach x c) := by
  have hdist := approach_near hx hnear
  have hstep := c.step_next (c.greedy x)
  have hmin := stepAt_range c.index_range
  rw [← c.step_eq] at hmin
  unfold Close approach at *
  omega

/-- A close value is less than two steps away. -/
theorem Close.near {x : Int} {c : Channel} (h : Close x c) : |x - c.pcmdata| < 2 * c.step := by
  have hstep := c.step_pos
  unfold Close at h
  omega

/-- From close on, the index counts down to zero. -/
theorem Close.iterate {x : Int} (hx : InRange x) {c : Channel} (h : Close x c) (n : Nat) :
    Close x ((approach x)^[n] c) ∧
      ((approach x)^[n] c).index = max (c.index - n) 0 := by
  induction n with
  | zero =>
      have hrange := c.index_range
      exact ⟨h, by simp only [Function.iterate_zero, id_eq]; omega⟩
  | succ n ih =>
      rw [Function.iterate_succ_apply']
      refine ⟨close_approach hx ih.1.near, ?_⟩
      rw [approach_index_near ih.1, ih.2]
      omega

/-- While it stays far, the index counts up by eight. -/
theorem far_iterate {x : Int} {c : Channel} {n : Nat}
    (hfar : ∀ i < n, 2 * ((approach x)^[i] c).step ≤ |x - ((approach x)^[i] c).pcmdata|) :
    min (8 * (n : Int)) 88 ≤ ((approach x)^[n] c).index := by
  induction n with
  | zero =>
      have hrange := c.index_range
      simp only [Function.iterate_zero, id_eq]
      omega
  | succ n ih =>
      have hrest := ih fun i hi => hfar i (by omega)
      rw [Function.iterate_succ_apply', approach_index_far (hfar n (by omega))]
      omega

/-- Within twelve samples the distance is less than two steps. -/
theorem exists_near {x : Int} (hx : InRange x) (c : Channel) :
    ∃ n ≤ 12, |x - ((approach x)^[n] c).pcmdata| < 2 * ((approach x)^[n] c).step := by
  by_contra hnone
  push Not at hnone
  have hindex : ∀ n, 11 ≤ n → n ≤ 12 → ((approach x)^[n] c).step = 32767 := by
    intro n hlow hhigh
    have hle := far_iterate (x := x) (c := c) (n := n) fun i hi => hnone i (by omega)
    have hrange := ((approach x)^[n] c).index_range
    have htop : ((approach x)^[n] c).index = 88 := by omega
    rw [Channel.step_eq, htop]
    decide
  have hfar := hnone 11 (by omega)
  have hstill := hnone 12 (by omega)
  have hshrink := approach_far hx hfar
  have hnext : approach x ((approach x)^[11] c) = (approach x)^[12] c :=
    (Function.iterate_succ_apply' _ _ _).symm
  rw [hnext, hindex 11 (by omega) (by omega)] at hshrink
  rw [hindex 12 (by omega) (by omega)] at hstill
  have hpcm := ((approach x)^[11] c).pcmdata_range
  have hmax : |x - ((approach x)^[11] c).pcmdata| ≤ 65535 := by
    unfold InRange at hx
    rw [abs_le]
    omega
  omega

/-- The smallest step is 7. -/
theorem Channel.step_of_index_zero {c : Channel} (h : c.index = 0) : c.step = 7 := by
  rw [step_eq, h]
  decide

/-- At the smallest step, a distance of at most three shrinks to one. -/
theorem approach_small {x : Int} (hx : InRange x) {c : Channel} (hindex : c.index = 0)
    (hsmall : |x - c.pcmdata| ≤ 3) :
    (approach x c).index = 0 ∧ |x - (approach x c).pcmdata| ≤ max (|x - c.pcmdata| - 1) 1 := by
  have hstep := Channel.step_of_index_zero hindex
  have hclose : |x - c.pcmdata| < c.step := by omega
  rcases c.magnitude_spec (abs_nonneg (x - c.pcmdata)) with ⟨hrange, hlow, hhigh, -⟩
  have hnear := hhigh (by omega)
  have hle := abs_approach_le hx c
  rw [hstep] at hle hlow hnear
  constructor
  · rw [approach_index_near hclose]
    omega
  · have hdist := abs_nonneg (x - c.pcmdata)
    have hmag : c.magnitude |x - c.pcmdata| = 0 ∧ |x - c.pcmdata| ≤ 1 ∨
        c.magnitude |x - c.pcmdata| = 1 ∧ 2 ≤ |x - c.pcmdata| := by omega
    rcases hmag with ⟨hmag, hone⟩ | ⟨hmag, htwo⟩
    · rw [hmag] at hle
      have hzero : trialDelta 7 0 = 0 := by decide
      rw [hzero, sub_zero, abs_of_nonneg hdist] at hle
      omega
    · rw [hmag] at hle
      have hone : trialDelta 7 1 = 1 := by decide
      have hpos : 0 ≤ |x - c.pcmdata| - 1 := by omega
      rw [hone, abs_of_nonneg hpos] at hle
      omega

/-- At the smallest step, a distance of at most one stays as it is. -/
theorem approach_settled {x : Int} {c : Channel} (hindex : c.index = 0)
    (hone : |x - c.pcmdata| ≤ 1) : (approach x c).pcmdata = c.pcmdata := by
  rcases c.magnitude_spec (abs_nonneg (x - c.pcmdata)) with ⟨hrange, hlow, -, -⟩
  have hpcm := c.pcmdata_range
  have hmag : c.magnitude |x - c.pcmdata| = 0 := by
    rw [Channel.step_of_index_zero hindex] at hlow
    omega
  have hzero : trialDelta c.step 0 = 0 := by
    rw [Channel.step_of_index_zero hindex]
    decide
  have hdelta : c.delta (c.greedy x) = 0 := by
    unfold Channel.greedy
    simp only
    split_ifs with hneg
    · rw [abs_of_neg hneg] at hmag
      rw [(c.delta_ofInt (c.magnitude_range (by omega))).2, hmag, hzero, neg_zero]
    · rw [abs_of_nonneg (not_lt.mp hneg)] at hmag
      rw [(c.delta_ofInt (c.magnitude_range (by omega))).1, hmag, hzero]
  have hnext : (approach x c).pcmdata = CLIP (c.pcmdata + c.delta (c.greedy x)) (-32768) 32767 :=
    rfl
  rw [hnext, hdelta, add_zero, CLIP]
  split_ifs <;> omega

/-- A state that a constant input no longer changes. -/
def Settled (x : Int) (c : Channel) : Prop :=
  c.index = 0 ∧ |x - c.pcmdata| ≤ 1

/-- A settled channel stays settled at the same value. -/
theorem Settled.iterate {x : Int} (hx : InRange x) {c : Channel} (h : Settled x c) (n : Nat) :
    Settled x ((approach x)^[n] c) ∧ ((approach x)^[n] c).pcmdata = c.pcmdata := by
  induction n with
  | zero => exact ⟨h, rfl⟩
  | succ n ih =>
      rcases ih with ⟨⟨hindex, hone⟩, hpcm⟩
      rw [Function.iterate_succ_apply']
      refine ⟨⟨(approach_small hx hindex (by omega)).1, ?_⟩, ?_⟩
      · rw [approach_settled hindex hone]
        exact hone
      · rw [approach_settled hindex hone, hpcm]

/-- Whatever the state, 104 samples of the same value are enough. -/
theorem settled_iterate {x : Int} (hx : InRange x) (c : Channel) :
    Settled x ((approach x)^[104] c) := by
  rcases exists_near hx c with ⟨n, hn, hnear⟩
  -- close to the sample, down to the smallest step, and three samples more
  have hclose := close_approach hx hnear
  rcases hclose.iterate hx 88 with ⟨hfirst, hindex⟩
  have hrange := (approach x ((approach x)^[n] c)).index_range
  generalize hd : (approach x)^[88] (approach x ((approach x)^[n] c)) = d at hfirst hindex
  have hzero : d.index = 0 := by omega
  have hnext : (approach x d).index = 0 := by
    rw [approach_index_near hfirst, hzero]
    decide
  have hthree : |x - (approach x d).pcmdata| ≤ 3 := by
    have hdist := approach_near hx hfirst.near
    rw [Channel.step_of_index_zero hzero] at hdist
    omega
  rcases approach_small hx hnext hthree with ⟨hindex', htwo⟩
  rcases approach_small hx hindex' (by omega) with ⟨hindex'', hone⟩
  have hsettled : Settled x ((approach x)^[92 + n] c) := by
    have heq : (approach x)^[92 + n] c = approach x (approach x (approach x d)) := by
      rw [Function.iterate_add_apply, ← hd]
      rfl
    rw [heq]
    exact ⟨hindex'', by omega⟩
  have hrest := (hsettled.iterate hx (104 - (92 + n))).1
  rw [← Function.iterate_add_apply] at hrest
  have hcount : 104 - (92 + n) + (92 + n) = 104 := by omega
  rwa [hcount] at hrest

/-! ## The samples of a block -/

section Block

variable {p : Context} {inbuf : List Int16} {n : Nat}

/-- The sample of a channel at a place of the input. -/
def inputAt (p : Context) (inbuf : List Int16) (ch k : Nat) : Int :=
  (inbuf[k * p.numChannels + ch]?.getD 0).toInt

/-- Every input sample has sixteen bits. -/
theorem inRange_inputAt (p : Context) (inbuf : List Int16) (ch k : Nat) :
    InRange (inputAt p inbuf ch k) :=
  ⟨Int16.le_toInt _, Int16.toInt_le _⟩

/-- The sample written is the prediction. -/
theorem Channel.toInt_sample (c : Channel) : c.sample.toInt = c.pcmdata := by
  have h := c.pcmdata_range
  exact Int16.toInt_ofInt_of_le (by omega) (by omega)

/-- The decoder starts at the first sample. -/
theorem decoderState_zero (total : Nat) (x : EncoderChannel × Nat) :
    (decoderState p inbuf total x 0).pcmdata = inputAt p inbuf x.2 0 := by
  simp [decoderState, stateAfter, EncoderChannel.startAt, inputAt]

/-- Without lookahead and noise shaping, every sample is approached. -/
theorem decoderState_approach (hlook : p.lookahead = 0)
    (hshape : p.noiseShaping = NOISE_SHAPING_OFF) (total : Nat) (x : EncoderChannel × Nat)
    (k : Nat) :
    decoderState p inbuf total x (k + 1) =
      approach (inputAt p inbuf x.2 (k + 1)) (decoderState p inbuf total x k) := by
  have hoff : ∀ (c : EncoderChannel) (csample : Int32),
      c.shape p.noiseShaping csample = (c, csample) := by
    intro c csample
    rw [hshape]
    rfl
  simp only [decoderState, stateAfter, encodeStep, EncoderChannel.follow, hoff, hlook,
    Int.toNat_zero, Nat.min_zero, ahead, searchCode, Lib.Lookahead.search, approach, inputAt,
    Int16.toInt_toInt32]

/-- Without lookahead and noise shaping all arithmetic is exact. -/
theorem exact_of_off (hlook : p.lookahead = 0) (hshape : p.noiseShaping = NOISE_SHAPING_OFF)
    (total : Nat) : p.Exact total := by
  constructor
  · rw [hlook, Int.toNat_zero, Nat.min_zero]
    exact Nat.zero_le _
  · intro hstatic
    rw [hshape] at hstatic
    exact absurd hstatic (by decide)

/-- For every block that is encoded without lookahead and noise shaping, and every
channel: the decoder goes through states, one for each sample that it stores, and each
of them is within about an eighth of the step of the original, or the step was too small
for the distance and the distance has shrunk by nearly fifteen eighths of it. -/
theorem decoded_error (hch : 0 < p.numChannels) (hlook : p.lookahead = 0)
    (hshape : p.noiseShaping = NOISE_SHAPING_OFF) (hn : 0 < n)
    (hlen : n * p.numChannels ≤ inbuf.length) :
    ∃ e, adpcmEncodeBlock p inbuf n = some e ∧ ∀ x ∈ p.channels.zipIdx, ∃ state : Nat → Channel,
      (state 0).pcmdata = inputAt p inbuf x.2 0 ∧ (state 0).index = x.1.index ∧
      (∀ k, ∃ code, state (k + 1) = (state k).next code) ∧
      (∀ k ≤ codedSamples n, (k * p.numChannels + x.2, (state k).sample) ∈
        (adpcmDecodeChannels e.outbuf p.numChannels).stores) ∧
      ∀ k, 8 * |inputAt p inbuf x.2 (k + 1) - (state (k + 1)).pcmdata| ≤ (state k).step + 17 ∨
        2 * (state k).step ≤ |inputAt p inbuf x.2 (k + 1) - (state k).pcmdata| ∧
          8 * |inputAt p inbuf x.2 (k + 1) - (state (k + 1)).pcmdata| ≤
            8 * |inputAt p inbuf x.2 (k + 1) - (state k).pcmdata| - 15 * (state k).step + 17 := by
  refine ⟨_, adpcmEncodeBlock_eq inbuf n (by omega) (exact_of_off hlook hshape _) hn hlen,
    fun x hx => ?_⟩
  refine ⟨decoderState p inbuf (codedSamples n) x, decoderState_zero _ x, rfl,
    fun k => ⟨_, decoderState_succ p inbuf _ x k⟩, fun k hk => ?_, fun k => ?_⟩
  · rw [adpcmDecodeChannels_blockBytes inbuf n hch]
    exact mem_blockStores inbuf n hx hk
  · have hx := inRange_inputAt p inbuf x.2 (k + 1)
    rw [decoderState_approach hlook hshape]
    rcases Int.lt_or_le
      |inputAt p inbuf x.2 (k + 1) - (decoderState p inbuf (codedSamples n) x k).pcmdata|
      (2 * (decoderState p inbuf (codedSamples n) x k).step) with hnear | hfar
    · left
      exact approach_near hx hnear
    · right
      exact ⟨hfar, approach_far hx hfar⟩

/-- Nine samples of a context as the recorder creates it. -/
theorem decoded_error_nine :
    let p := adpcmCreateContext 0 NOISE_SHAPING_OFF [1024]
    let inbuf : List Int16 := [0, 900, 1700, 2300, 2600, 2600, 2300, 1700, 900]
    ∃ e, adpcmEncodeBlock p inbuf 9 = some e ∧ ∀ x ∈ p.channels.zipIdx, ∃ state : Nat → Channel,
      (state 0).pcmdata = inputAt p inbuf x.2 0 ∧ (state 0).index = x.1.index ∧
      (∀ k, ∃ code, state (k + 1) = (state k).next code) ∧
      (∀ k ≤ 8, (k * 1 + x.2, (state k).sample) ∈ (adpcmDecodeChannels e.outbuf 1).stores) ∧
      ∀ k, 8 * |inputAt p inbuf x.2 (k + 1) - (state (k + 1)).pcmdata| ≤ (state k).step + 17 ∨
        2 * (state k).step ≤ |inputAt p inbuf x.2 (k + 1) - (state k).pcmdata| ∧
          8 * |inputAt p inbuf x.2 (k + 1) - (state (k + 1)).pcmdata| ≤
            8 * |inputAt p inbuf x.2 (k + 1) - (state k).pcmdata| - 15 * (state k).step + 17 := by
  intro p inbuf
  have hlen : 9 * p.numChannels ≤ inbuf.length := by decide
  exact decoded_error (by decide) rfl rfl (by decide) hlen

/-- A run of equal samples. -/
theorem decoderState_constant (hlook : p.lookahead = 0)
    (hshape : p.noiseShaping = NOISE_SHAPING_OFF) (total : Nat) (x : EncoderChannel × Nat)
    {a b : Nat} {s : Int16}
    (hconst : ∀ k, a < k → k ≤ b → inbuf[k * p.numChannels + x.2]? = some s) {j : Nat}
    (hj : a + j ≤ b) :
    decoderState p inbuf total x (a + j) =
      (approach s.toInt)^[j] (decoderState p inbuf total x a) := by
  induction j with
  | zero => rfl
  | succ j ih =>
      have hinput : inputAt p inbuf x.2 (a + j + 1) = s.toInt := by
        rw [inputAt, hconst (a + j + 1) (by omega) hj]
        rfl
      rw [Function.iterate_succ_apply', ← Nat.add_assoc, decoderState_approach hlook hshape,
        hinput, ih (by omega)]

/-- For every block that is encoded without lookahead and noise shaping, from every
context: where the samples of a channel stay the same, the decoded ones are at most one
off and stay the same, too, from the 104th on. -/
theorem decoded_settles (hch : 0 < p.numChannels) (hlook : p.lookahead = 0)
    (hshape : p.noiseShaping = NOISE_SHAPING_OFF) (hn : 0 < n)
    (hlen : n * p.numChannels ≤ inbuf.length) :
    ∃ e, adpcmEncodeBlock p inbuf n = some e ∧ ∀ x ∈ p.channels.zipIdx, ∀ a b s,
      b ≤ codedSamples n →
      (∀ k, a < k → k ≤ b → inbuf[k * p.numChannels + x.2]? = some s) →
      ∃ out : Int16, |s.toInt - out.toInt| ≤ 1 ∧ ∀ k, a + 104 ≤ k → k ≤ b →
        (k * p.numChannels + x.2, out) ∈
          (adpcmDecodeChannels e.outbuf p.numChannels).stores := by
  refine ⟨_, adpcmEncodeBlock_eq inbuf n (by omega) (exact_of_off hlook hshape _) hn hlen, ?_⟩
  intro x hx a b s hb hconst
  have hs : InRange s.toInt := ⟨s.le_toInt, s.toInt_le⟩
  have hsettled := settled_iterate hs (decoderState p inbuf (codedSamples n) x a)
  refine ⟨((approach s.toInt)^[104] (decoderState p inbuf (codedSamples n) x a)).sample, ?_, ?_⟩
  · rw [Channel.toInt_sample]
    exact hsettled.2
  · intro k hk hkb
    have hrun := decoderState_constant hlook hshape (codedSamples n) x hconst
      (by omega : a + (k - (a + 104) + 104) ≤ b)
    have hstay := (hsettled.iterate hs (k - (a + 104))).2
    rw [← Function.iterate_add_apply, ← hrun] at hstay
    have hplace : a + (k - (a + 104) + 104) = k := by omega
    rw [hplace] at hstay
    rw [adpcmDecodeChannels_blockBytes inbuf n hch]
    have hmem := mem_blockStores inbuf n hx (Nat.le_trans hkb hb)
    rwa [Channel.sample, hstay] at hmem

/-- From a silent start to a constant 500. -/
theorem decoded_settles_constant :
    ∃ e, adpcmEncodeBlock (adpcmCreateContext 0 NOISE_SHAPING_OFF [1024])
        (0 :: List.replicate 112 500) 113 = some e ∧
      ∃ out : Int16, |500 - out.toInt| ≤ 1 ∧
        (112, out) ∈ (adpcmDecodeChannels e.outbuf 1).stores := by
  rcases decoded_settles (p := adpcmCreateContext 0 NOISE_SHAPING_OFF [1024]) (by decide) rfl rfl
    (n := 113) (by decide)
    (by decide : 113 * (adpcmCreateContext 0 NOISE_SHAPING_OFF [1024]).numChannels ≤
      ((0 : Int16) :: List.replicate 112 500).length) with ⟨e, he, hsettles⟩
  refine ⟨e, he, ?_⟩
  have hconst : ∀ k, 0 < k → k ≤ 112 →
      ((0 : Int16) :: List.replicate 112 500)[k * 1 + 0]? = some 500 := by
    intro k hpos hk
    obtain ⟨j, rfl⟩ : ∃ j, k = j + 1 := ⟨k - 1, by omega⟩
    rw [Nat.mul_one, Nat.add_zero, List.getElem?_cons_succ, List.getElem?_replicate]
    exact if_pos (by omega)
  rcases hsettles ((adpcmCreateContext 0 NOISE_SHAPING_OFF [1024]).channels.head (by decide), 0)
    (List.mem_cons_self ..) 0 112 500 (by decide) hconst with ⟨out, hout, hstored⟩
  exact ⟨out, hout, hstored 112 (by decide) (by decide)⟩

/-! ## Noise shaping -/

/-- With static noise shaping the error that a channel carries changes by the errors of the
decoded samples. -/
theorem stateAfter_error {total : Nat} (hexact : p.Exact total)
    (hshape : p.noiseShaping = NOISE_SHAPING_STATIC) {x : EncoderChannel × Nat}
    (hx : x.1 ∈ p.channels) {k : Nat} (hk : k ≤ total) :
    (stateAfter p inbuf total x.1 x.2 k).error.toInt =
      x.1.error.toInt + ∑ j ∈ Finset.range k,
        ((decoderState p inbuf total x (j + 1)).pcmdata - inputAt p inbuf x.2 (j + 1)) := by
  induction k with
  | zero => simp [stateAfter, EncoderChannel.startAt]
  | succ k ih =>
      have hbound := hexact.error hshape x.1 hx
      have hle := abs_error_le inbuf hexact hshape hx x.2 (by omega : k ≤ total)
      rw [stateAfter_static hshape x.1 x.2 k (by omega), ih (by omega), Finset.sum_range_succ]
      exact add_assoc _ _ _

/-- For every block that is encoded with static noise shaping, from every context for which
the arithmetic of the block is exact and with every lookahead: the errors of the decoded
samples of a channel add up to the change of the error that the channel carries. -/
theorem decoded_sum (hch : 0 < p.numChannels) (hlook : 0 ≤ p.lookahead)
    (hshape : p.noiseShaping = NOISE_SHAPING_STATIC) (hexact : p.Exact (codedSamples n))
    (hn : 0 < n) (hlen : n * p.numChannels ≤ inbuf.length) :
    ∃ e, adpcmEncodeBlock p inbuf n = some e ∧ ∀ x ∈ p.channels.zipIdx,
      ∃ out : Nat → Int16, ∃ c : EncoderChannel,
        (∀ k ≤ codedSamples n, (k * p.numChannels + x.2, out k) ∈
          (adpcmDecodeChannels e.outbuf p.numChannels).stores) ∧
        e.channels[x.2]? = some c ∧
        ∑ k ∈ Finset.range (codedSamples n),
            ((out (k + 1)).toInt - inputAt p inbuf x.2 (k + 1)) =
          c.error.toInt - x.1.error.toInt := by
  refine ⟨_, adpcmEncodeBlock_eq inbuf n hlook hexact hn hlen, fun x hx => ?_⟩
  refine ⟨fun k => (decoderState p inbuf (codedSamples n) x k).sample,
    stateAfter p inbuf (codedSamples n) x.1 x.2 (codedSamples n), fun k hk => ?_, ?_, ?_⟩
  · rw [adpcmDecodeChannels_blockBytes inbuf n hch]
    exact mem_blockStores inbuf n hx hk
  · have hget := List.mem_zipIdx_iff_getElem?.mp hx
    simp [channelsBehind, statesAfter, hget]
  · have hget := List.mem_zipIdx_iff_getElem?.mp hx
    rw [stateAfter_error hexact hshape (List.mem_of_getElem? hget) (Nat.le_refl _)]
    simp only [Channel.toInt_sample]
    ring

/-- Two channels with a lookahead of three samples. -/
theorem decoded_sum_nine :
    let p := adpcmCreateContext 3 NOISE_SHAPING_STATIC [7, 1000]
    let inbuf : List Int16 := List.replicate 18 (-40)
    ∃ e, adpcmEncodeBlock p inbuf 9 = some e ∧ ∀ x ∈ p.channels.zipIdx,
      ∃ out : Nat → Int16, ∃ c : EncoderChannel,
        (∀ k ≤ 8, (k * 2 + x.2, out k) ∈ (adpcmDecodeChannels e.outbuf 2).stores) ∧
        e.channels[x.2]? = some c ∧
        ∑ k ∈ Finset.range 8, ((out (k + 1)).toInt - inputAt p inbuf x.2 (k + 1)) =
          c.error.toInt - x.1.error.toInt := by
  intro p inbuf
  have hexact : p.Exact (codedSamples 9) := ⟨by decide, fun _ => by decide⟩
  have hlen : 9 * p.numChannels ≤ inbuf.length := by decide
  exact decoded_sum (by decide) (by decide) rfl hexact (by decide) hlen

end Block

end Adpcm
end Ls2kMorse
