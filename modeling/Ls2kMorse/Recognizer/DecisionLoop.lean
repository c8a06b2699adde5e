import Ls2kMorse.Lib.WriteBuffer
import Ls2kMorse.Lib.Hysteresis
import Ls2kMorse.Morse.Alphabet

/-!
# The decision loop of the recogniser

`morse_process_once_thread` and `morse_process_test_thread` turn the energies of
the frames into Morse symbols in one pass.  The loop keeps the flag `sta`
(0 initial, 1 high, 2 low), the flag `st` (data has started), the frame indices
`m` and `n` of the last rising and falling edge, and writes `jud[k++]`.  The
three tests on `sta` stand one after the other, so a frame that changes `sta`
is tested again in its new state.

The module embeds the loop with its bounds-checked writes and shows that it is
the online scanner of the two-threshold segmentation followed by a pure
translation of mark and gap lengths into symbols.

Main results:

- Theorem `Decision.frame_eq`: what one frame does in each state.
- Theorem `Decision.loop_jud`: a run writes the symbols of the scanned runs.
- Theorem `decisionLoop_jud`: the whole loop writes `produced`, or leaves the
  array when there are more than 200 symbols.
-/

namespace Ls2kMorse

open Lib Lib.Hysteresis

/-! ## The loop as the source computes it -/

/-- The constants in which the two decision loops differ. -/
structure Thresholds where
  T : Int
  dianMin : Int
  dianMax : Int
  huaMin : Int
  huaMax : Int
  zifuGap : Int
  ciGap : Int

/-- Thresholds of `morse_process_once_thread`. -/
def morseProcessOnce : Thresholds where
  T := 1000000
  dianMin := 10
  dianMax := 35
  huaMin := 35
  huaMax := 50
  zifuGap := 6
  ciGap := 15

/-- Thresholds of `morse_process_test_thread`. -/
def morseProcessTest : Thresholds where
  T := 1000000
  dianMin := 3
  dianMax := 10
  huaMin := 10
  huaMax := 20
  zifuGap := 8
  ciGap := 60

/-- Local variables of the decision loop; `jud` holds the array `jud[200]` and
the index `k`. -/
structure Decision where
  sta : Int
  st : Int
  m : Int
  n : Int
  jud : WriteBuffer Int
deriving DecidableEq

namespace Decision

/-- State before the loop; the source leaves `m` and `n` uninitialised. -/
def init (m₀ n₀ : Int) : Decision where
  sta := 0
  st := 0
  m := m₀
  n := n₀
  jud := WriteBuffer.cleared MORSE_FINSH 200

/-- Write one element, preceded by `MORSE_START` when no data has started. -/
def emitMark (s : Decision) (symbol : Int) : Option Decision :=
  if s.st = 1 then do
    let jud ← s.jud.put symbol
    some { s with jud := jud }
  else do
    let jud ← s.jud.put MORSE_START
    let jud ← jud.put symbol
    some { s with jud := jud, st := 1 }

/-- The falling edge: measure the mark `H = n - m` and classify it. -/
def closeMark (th : Thresholds) (s : Decision) (i : Int) : Option Decision := do
  let s := { s with n := i }
  let H := s.n - s.m
  let s ←
    if H ≥ th.dianMin ∧ H < th.dianMax then s.emitMark MORSE_DIAN
    else if H ≥ th.huaMin ∧ H < th.huaMax then s.emitMark MORSE_HUA
    else some s
  some { s with sta := 2 }

/-- The rising edge after a mark: measure the gap `L = m - n` and classify it.
The flag `st` is not consulted here. -/
def openMark (th : Thresholds) (s : Decision) (i : Int) : Option Decision := do
  let s := { s with m := i }
  let L := s.m - s.n
  let s ←
    if L > th.zifuGap ∧ L ≤ th.ciGap then do
      let jud ← s.jud.put MORSE_ZIFU_KONG
      some { s with jud := jud }
    else if L > th.ciGap then do
      let jud ← s.jud.put MORSE_ZIFU_KONG
      let jud ← jud.put MORSE_CI_KONG
      let jud ← jud.put MORSE_ZIFU_KONG
      some { s with jud := jud }
    else some s
  some { s with sta := 1 }

/-- One iteration of the loop on frame `i` with energy `en`. -/
def frame (th : Thresholds) (s : Decision) (i en : Int) : Option Decision := do
  let s :=
    if s.sta = 0 then
      if en > th.T then { s with m := i, sta := 1 } else s
    else s
  let s ←
    if s.sta = 1 then
      if en < th.T then s.closeMark th i else some s
    else some s
  if s.sta = 2 then
    if en > th.T then s.openMark th i else some s
  else some s

/-- The loop over the remaining frames, starting at frame `i`. -/
def loop (th : Thresholds) (s : Decision) (i : Nat) : List Int → Option Decision
  | [] => some s
  | en :: rest => do
      let s ← s.frame th i en
      loop th s (i + 1) rest

end Decision

/-- The decision loop on the energies `En[0..fn)`. -/
def decisionLoop (th : Thresholds) (m₀ n₀ : Int) (En : List Int) : Option Decision :=
  (Decision.init m₀ n₀).loop th 0 En

/-! ## Translation of runs into symbols -/

namespace Thresholds

/-- The element that a mark of `H` frames stands for. -/
def markSymbol (th : Thresholds) (H : Int) : Option Int :=
  if H ≥ th.dianMin ∧ H < th.dianMax then some MORSE_DIAN
  else if H ≥ th.huaMin ∧ H < th.huaMax then some MORSE_HUA
  else none

/-- The separators that a gap of `L` frames stands for. -/
def gapSymbols (th : Thresholds) (L : Int) : List Int :=
  if L > th.zifuGap ∧ L ≤ th.ciGap then [MORSE_ZIFU_KONG]
  else if L > th.ciGap then [MORSE_ZIFU_KONG, MORSE_CI_KONG, MORSE_ZIFU_KONG]
  else []

/-- A frame above the energy threshold. -/
def Above (th : Thresholds) (en : Int) : Prop :=
  en > th.T

/-- A frame below the energy threshold. -/
def Below (th : Thresholds) (en : Int) : Prop :=
  en < th.T

instance (th : Thresholds) : DecidablePred th.Above := fun en =>
  inferInstanceAs (Decidable (en > th.T))

instance (th : Thresholds) : DecidablePred th.Below := fun en =>
  inferInstanceAs (Decidable (en < th.T))

/-- No frame is both above and below the threshold. -/
theorem not_above_of_below {th : Thresholds} {en : Int} (h : th.Below en) : ¬ th.Above en :=
  Int.not_lt.mpr (Int.le_of_lt h)

/-- An energy above the upper threshold is not below the lower one. -/
theorem not_below_of_above {th : Thresholds} {en : Int} (h : th.Above en) : ¬ th.Below en :=
  Int.not_lt.mpr (Int.le_of_lt h)

end Thresholds

/-- An element with the start symbol in front of it if no data has started. -/
def startedSymbols (started : Bool) (symbol : Int) : List Int :=
  if started then [symbol] else [MORSE_START, symbol]

/-- The symbols of a sequence of runs; `started` says whether an element has
been written already. -/
def produced (th : Thresholds) : Bool → List Run → List Int
  | _, [] => []
  | started, .mark H :: rs =>
      match th.markSymbol H with
      | none => produced th started rs
      | some symbol => startedSymbols started symbol ++ produced th true rs
  | started, .gap L :: rs => th.gapSymbols L ++ produced th started rs

/-- Whether an element has been written once one more run is translated. -/
def startedAfter (th : Thresholds) (started : Bool) : Run → Bool
  | .mark H => started || (th.markSymbol H).isSome
  | .gap _ => started

/-- The symbols of a sequence of runs are those of its first run and then those
of the others. -/
theorem produced_cons (th : Thresholds) (started : Bool) (r : Run) (rs : List Run) :
    produced th started (r :: rs) =
      produced th started [r] ++ produced th (startedAfter th started r) rs := by
  cases r with
  | mark H => cases h : th.markSymbol H <;> simp [produced, startedAfter, h]
  | gap L => simp [produced, startedAfter]

/-- The symbols of an energy sequence, before any bound on their number. -/
def producedFrom (th : Thresholds) (En : List Int) : List Int :=
  produced th false (scan th.Above th.Below .quiet 0 En)

/-! ## One frame -/

namespace Decision

/-- The scanner state and the start flag that a decision state stands for. -/
structure Represents (s : Decision) (level : Level) (started : Bool) (i : Nat) : Prop where
  st_eq : s.st = if started then 1 else 0
  level_eq : match level with
    | .quiet => s.sta = 0
    | .high m => s.sta = 1 ∧ s.m = m ∧ m ≤ i
    | .low n => s.sta = 2 ∧ s.n = n ∧ n ≤ i

/-- The loop starts in silence. -/
theorem init_represents (m₀ n₀ : Int) : (init m₀ n₀).Represents .quiet false 0 :=
  ⟨rfl, rfl⟩

/-- Writing an element stores it behind `MORSE_START` if nothing was written yet. -/
theorem emitMark_eq {s : Decision} {started : Bool} (hst : s.st = if started then 1 else 0)
    (symbol : Int) :
    s.emitMark symbol =
      (s.jud.putAll (startedSymbols started symbol)).map fun jud =>
        { s with jud := jud, st := 1 } := by
  cases started with
  | false =>
      have hne : ¬ s.st = 1 := by simp [hst]
      simp only [emitMark, hne, if_false, startedSymbols, Bool.false_eq_true, WriteBuffer.putAll]
      cases s.jud.put MORSE_START with
      | none => rfl
      | some jud => cases hsymbol : jud.put symbol <;> simp [hsymbol]
  | true =>
      have heq : s.st = 1 := by simp [hst]
      simp only [emitMark, heq, if_true, startedSymbols, WriteBuffer.putAll]
      cases s.jud.put symbol <;> rfl

/-- The falling edge writes the element of the mark it closes. -/
theorem closeMark_eq (th : Thresholds) {s : Decision} {started : Bool} {m i : Nat}
    (hs : s.Represents (.high m) started i) :
    s.closeMark th i =
      (s.jud.putAll (produced th started [.mark (i - m)])).map fun jud =>
        { s with
          n := i
          sta := 2
          st := if started || (th.markSymbol (i - m : Nat)).isSome then 1 else 0
          jud := jud } := by
  rcases hs with ⟨hst, -, hm, hle⟩
  have hlen : (i : Int) - s.m = ((i - m : Nat) : Int) := by
    rw [hm, Int.ofNat_sub hle]
  have hst' : ({ s with n := (i : Int) } : Decision).st = if started then 1 else 0 := hst
  simp only [closeMark, hlen, produced, Thresholds.markSymbol]
  by_cases hdian : ((i - m : Nat) : Int) ≥ th.dianMin ∧ ((i - m : Nat) : Int) < th.dianMax
  · simp only [if_pos hdian, emitMark_eq hst', Option.isSome_some, Bool.or_true, if_true,
      List.append_nil]
    cases s.jud.putAll (startedSymbols started MORSE_DIAN) <;> rfl
  · by_cases hhua : ((i - m : Nat) : Int) ≥ th.huaMin ∧ ((i - m : Nat) : Int) < th.huaMax
    · simp only [if_neg hdian, if_pos hhua, emitMark_eq hst', Option.isSome_some, Bool.or_true,
        if_true, List.append_nil]
      cases s.jud.putAll (startedSymbols started MORSE_HUA) <;> rfl
    · simp [if_neg hdian, if_neg hhua, hst]

/-- The rising edge writes the separators of the gap it ends. -/
theorem openMark_eq (th : Thresholds) {s : Decision} {started : Bool} {n i : Nat}
    (hs : s.Represents (.low n) started i) :
    s.openMark th i =
      (s.jud.putAll (produced th started [.gap (i - n)])).map fun jud =>
        { s with m := i, sta := 1, jud := jud } := by
  rcases hs with ⟨-, -, hn, hle⟩
  have hlen : (i : Int) - s.n = ((i - n : Nat) : Int) := by
    rw [hn, Int.ofNat_sub hle]
  simp only [openMark, hlen, produced, Thresholds.gapSymbols, List.append_nil]
  split_ifs
  · simp only [WriteBuffer.putAll]
    cases s.jud.put MORSE_ZIFU_KONG <;> rfl
  · simp only [WriteBuffer.putAll]
    cases s.jud.put MORSE_ZIFU_KONG with
    | none => rfl
    | some jud =>
        cases hword : jud.put MORSE_CI_KONG with
        | none => simp [hword]
        | some jud' => cases hletter : jud'.put MORSE_ZIFU_KONG <;> simp [hword, hletter]
  · simp

/-- What one frame does: a rising edge out of the initial state writes nothing,
a falling edge closes the mark, a rising edge after a mark ends the gap, and no
frame makes two of these moves. -/
theorem frame_eq (th : Thresholds) {s : Decision} {level : Level} {started : Bool} {i : Nat}
    (hs : s.Represents level started i) (en : Int) :
    s.frame th i en =
      match level with
      | .quiet => if th.Above en then some { s with m := i, sta := 1 } else some s
      | .high _ => if th.Below en then s.closeMark th i else some s
      | .low _ => if th.Above en then s.openMark th i else some s := by
  cases level with
  | quiet =>
      have hsta : s.sta = 0 := hs.level_eq
      by_cases hab : th.Above en
      · have hgt : en > th.T := hab
        have hnlt : ¬ en < th.T := Thresholds.not_below_of_above hab
        simp [frame, hsta, hab, hgt, hnlt]
      · have hngt : ¬ en > th.T := hab
        simp [frame, hsta, hab, hngt]
  | high m =>
      have hsta : s.sta = 1 := hs.level_eq.1
      by_cases hbe : th.Below en
      · have hlt : en < th.T := hbe
        have hngt : ¬ en > th.T := Thresholds.not_above_of_below hbe
        simp [frame, hsta, hbe, hlt, hngt]
      · have hnlt : ¬ en < th.T := hbe
        simp [frame, hsta, hbe, hnlt]
  | low n =>
      have hsta : s.sta = 2 := hs.level_eq.1
      by_cases hab : th.Above en
      · have hgt : en > th.T := hab
        simp [frame, hsta, hab, hgt]
      · have hngt : ¬ en > th.T := hab
        simp [frame, hsta, hab, hngt]

/-- The next frame does not change what is represented. -/
theorem Represents.succ {s : Decision} {level : Level} {started : Bool} {i : Nat}
    (hs : s.Represents level started i) : s.Represents level started (i + 1) := by
  rcases hs with ⟨hst, hlevel⟩
  refine ⟨hst, ?_⟩
  cases level with
  | quiet => exact hlevel
  | high m => exact ⟨hlevel.1, hlevel.2.1, Nat.le_succ_of_le hlevel.2.2⟩
  | low n => exact ⟨hlevel.1, hlevel.2.1, Nat.le_succ_of_le hlevel.2.2⟩

/-! ## Whole runs -/

/-- From any state, the loop writes the symbols of the runs that the scanner
reports on the remaining frames. -/
theorem loop_jud (th : Thresholds) {s : Decision} {level : Level} {started : Bool} {i : Nat}
    (hs : s.Represents level started i) (En : List Int) :
    (s.loop th i En).map jud =
      s.jud.putAll (produced th started (scan th.Above th.Below level i En)) := by
  induction En generalizing s level started i with
  | nil => simp [loop, produced]
  | cons en rest ih =>
      unfold loop
      rw [frame_eq th hs en]
      cases level with
      | quiet =>
          by_cases hab : th.Above en
          · have hnext : ({ s with m := i, sta := 1 } : Decision).Represents
                (.high i) started (i + 1) :=
              ⟨hs.st_eq, rfl, rfl, Nat.le_succ i⟩
            simpa [hab, scan] using ih hnext
          · simpa [hab, scan] using ih hs.succ
      | high m =>
          by_cases hbe : th.Below en
          · simp only [if_pos hbe, scan, closeMark_eq th hs]
            rw [produced_cons th started (.mark (i - m)) (scan th.Above th.Below _ _ rest),
              WriteBuffer.putAll_append]
            cases hput : s.jud.putAll (produced th started [.mark (i - m)]) with
            | none => rfl
            | some jud =>
                have hnext : ({ s with
                      n := i
                      sta := 2
                      st := if startedAfter th started (.mark (i - m)) then 1 else 0
                      jud := jud } : Decision).Represents
                    (.low i) (startedAfter th started (.mark (i - m))) (i + 1) :=
                  ⟨rfl, rfl, rfl, Nat.le_succ i⟩
                exact ih hnext
          · simpa [hbe, scan] using ih hs.succ
      | low n =>
          by_cases hab : th.Above en
          · simp only [if_pos hab, scan, openMark_eq th hs]
            rw [produced_cons th started (.gap (i - n)) (scan th.Above th.Below _ _ rest),
              WriteBuffer.putAll_append]
            cases hput : s.jud.putAll (produced th started [.gap (i - n)]) with
            | none => rfl
            | some jud =>
                have hnext : ({ s with m := i, sta := 1, jud := jud } : Decision).Represents
                    (.high i) started (i + 1) :=
                  ⟨hs.st_eq, rfl, rfl, Nat.le_succ i⟩
                exact ih hnext
          · simpa [hab, scan] using ih hs.succ

end Decision

/-- The decision loop writes the produced symbols into the cleared `jud[200]`;
when there are more than 200 of them it writes outside the array. -/
theorem decisionLoop_jud (th : Thresholds) (m₀ n₀ : Int) (En : List Int) :
    (decisionLoop th m₀ n₀ En).map Decision.jud =
      if (producedFrom th En).length ≤ 200 then
        some (WriteBuffer.holding MORSE_FINSH 200 (producedFrom th En))
      else none := by
  unfold decisionLoop
  rw [Decision.loop_jud th (Decision.init_represents m₀ n₀)]
  exact WriteBuffer.putAll_cleared MORSE_FINSH 200 _

end Ls2kMorse
