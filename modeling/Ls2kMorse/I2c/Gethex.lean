import Ls2kMorse.Lib.BitField
import Mathlib.Data.List.Forall2

/-!
# Hexadecimal numbers in a string

`gethex` reads a number of `n` hexadecimal digits.  It stops at the first character
that is none, the terminating zero included, and only stores the number when it has
read all of them.

Main results:

- Theorem `gethex_reads_le`: no character behind the terminating one is read.
- Theorems `gethexLoop_value_of_digitsAt` and `gethexLoop_value_eq_none`: what the loop
  computes, from the characters alone.
- Theorem `gethex_parses`: when a number is read, and which one.
-/

namespace Ls2kMorse
namespace I2c

/-! ## Strings in memory -/

/-- A string without its terminating zero. -/
structure CString where
  chars : List UInt8
  noNul : 0 ∉ chars

/-- The memory from a string on, with what lies behind it. -/
def CString.mem (s : CString) (beyond : Nat → UInt8) (i : Nat) : UInt8 :=
  if i < s.chars.length then s.chars.getD i 0
  else if i = s.chars.length then 0
  else beyond (i - s.chars.length - 1)

/-- A string lies in memory from a place on, its terminating zero included. -/
structure CString.At (s : CString) (mem : Nat → UInt8) (p : Nat) : Prop where
  chars : ∀ i c, s.chars[i]? = some c → mem (p + i) = c
  nul : mem (p + s.chars.length) = 0

/-- A string stands at the start of its memory. -/
theorem CString.at_mem (s : CString) (beyond : Nat → UInt8) : s.At (s.mem beyond) 0 where
  chars := by
    intro i c hi
    rcases List.getElem?_eq_some_iff.mp hi with ⟨hlt, rfl⟩
    rw [Nat.zero_add, CString.mem, if_pos hlt, List.getD, List.getElem?_eq_getElem hlt]
    rfl
  nul := by simp [CString.mem]

/-! ## The function -/

/-- The value of a digit in `gethex`.  Whether `char` is signed makes no difference: the
bytes from 0x80 on are no digits. -/
def digit (c : UInt8) : Option UInt64 :=
  if '0'.toUInt8 ≤ c ∧ c ≤ '9'.toUInt8 then some (c - '0'.toUInt8).toUInt64
  else if 'a'.toUInt8 ≤ c ∧ c ≤ 'f'.toUInt8 then some ((c - 'a'.toUInt8).toUInt64 + 10)
  else if 'A'.toUInt8 ≤ c ∧ c ≤ 'F'.toUInt8 then some ((c - 'A'.toUInt8).toUInt64 + 10)
  else none

/-- What the loop of `gethex` computes, none if it returns early, and the places it
reads. -/
structure Digits where
  value : Option UInt64
  reads : List Nat
deriving Repr, DecidableEq

/-- The loop of `gethex` with `n` digits to go. -/
def gethexLoop (mem : Nat → UInt8) : Nat → Nat → UInt64 → Digits
  | 0, _, v => { value := some v, reads := [] }
  | n + 1, p, v =>
      if mem p = 0 then { value := none, reads := [p] }
      else
        match digit (mem p) with
        | none => { value := none, reads := [p] }
        | some d =>
            let rest := gethexLoop mem n (p + 1) ((v <<< 4) ||| d)
            { rest with reads := p :: rest.reads }

/-- What `gethex` returns and leaves in `*vp`. -/
structure Gethex where
  result : Int
  vp : UInt32
  reads : List Nat
deriving Repr, DecidableEq

/-- `gethex`: reads at most `n` hexadecimal digits from `p`. -/
def gethex (vp : UInt32) (mem : Nat → UInt8) (p : Nat) (n : Int) : Gethex :=
  let digits := gethexLoop mem n.toNat p 0
  match digits.value with
  | some v => { result := 1, vp := v.toUInt32, reads := digits.reads }
  | none => { result := 0, vp := vp, reads := digits.reads }

/-! ## Digits -/

/-- The digits with the letters in lower case. -/
def lowerDigits : List UInt8 :=
  ['0', '1', '2', '3', '4', '5', '6', '7', '8', '9', 'a', 'b', 'c', 'd', 'e', 'f'].map Char.toUInt8

/-- The digits with the letters in upper case. -/
def upperDigits : List UInt8 :=
  ['0', '1', '2', '3', '4', '5', '6', '7', '8', '9', 'A', 'B', 'C', 'D', 'E', 'F'].map Char.toUInt8

/-- A character is the hexadecimal digit of a value. -/
def HexDigit (c : UInt8) (d : Nat) : Prop :=
  lowerDigits[d]? = some c ∨ upperDigits[d]? = some c

instance (c : UInt8) (d : Nat) : Decidable (HexDigit c d) :=
  inferInstanceAs (Decidable (_ ∨ _))

/-- The number with the given digits, the highest one first. -/
def hexValue (ds : List Nat) : Nat :=
  Nat.ofDigits 16 ds.reverse

/-- The first `n` characters of a string are the digits with the given values. -/
def CString.StartsWith (s : CString) (n : Nat) (ds : List Nat) : Prop :=
  n ≤ s.chars.length ∧ List.Forall₂ HexDigit (s.chars.take n) ds

instance (s : CString) (n : Nat) (ds : List Nat) : Decidable (s.StartsWith n ds) :=
  inferInstanceAs (Decidable (_ ∧ _))

/-- A hexadecimal digit is less than sixteen. -/
theorem hexDigit_lt {c : UInt8} {d : Nat} (h : HexDigit c d) : d < 16 := by
  rcases h with h | h
  · exact (List.getElem?_eq_some_iff.mp h).1
  · exact (List.getElem?_eq_some_iff.mp h).1

/-- The digits of a table by their places in it. -/
theorem digit_of_getElem? {digits : List UInt8}
    (hdigits : digits.map digit = (List.range 16).map fun d => some (UInt64.ofNat d)) {c : UInt8}
    {d : Nat} (h : digits[d]? = some c) : digit c = some (UInt64.ofNat d) := by
  have hmap : (digits.map digit)[d]? = some (digit c) := by
    rw [List.getElem?_map, h, Option.map_some]
  rw [hdigits, List.getElem?_map, Option.map_eq_some_iff] at hmap
  rcases hmap with ⟨d', hd', hdigit⟩
  rw [List.getElem?_eq_some_iff] at hd'
  rcases hd' with ⟨hlt, hplace⟩
  rw [List.getElem_range] at hplace
  rw [← hdigit, hplace]

/-- `gethex` knows the digits. -/
theorem digit_of_hexDigit {c : UInt8} {d : Nat} (h : HexDigit c d) :
    digit c = some (UInt64.ofNat d) := by
  rcases h with h | h
  · exact digit_of_getElem? (by decide) h
  · exact digit_of_getElem? (by decide) h

/-- The character that ends a string is no digit. -/
theorem ne_zero_of_hexDigit {c : UInt8} {d : Nat} (h : HexDigit c d) : c ≠ 0 := by
  rintro rfl
  have hd := digit_of_hexDigit h
  have hnone : digit 0 = none := rfl
  rw [hnone] at hd
  simp at hd

/-- A character of a range by its place in it. -/
theorem exists_place {first last c : UInt8} (hfirst : first ≤ c) (hlast : c ≤ last) :
    ∃ k ≤ last.toNat - first.toNat, c = first + UInt8.ofNat k := by
  have hfirst := UInt8.le_iff_toNat_le.mp hfirst
  have hlast := UInt8.le_iff_toNat_le.mp hlast
  refine ⟨c.toNat - first.toNat, by omega, ?_⟩
  apply UInt8.toNat_inj.mp
  have hc := c.toNat_lt
  rw [UInt8.toNat_add, UInt8.toNat_ofNat']
  omega

/-- `gethex` takes nothing else for a digit. -/
theorem exists_hexDigit_of_digit {c : UInt8} {v : UInt64} (h : digit c = some v) :
    ∃ d, HexDigit c d := by
  have hdecimal : ∀ k ≤ 9, lowerDigits[k]? = some ('0'.toUInt8 + UInt8.ofNat k) := by decide
  have hlower : ∀ k ≤ 5, lowerDigits[10 + k]? = some ('a'.toUInt8 + UInt8.ofNat k) := by decide
  have hupper : ∀ k ≤ 5, upperDigits[10 + k]? = some ('A'.toUInt8 + UInt8.ofNat k) := by decide
  unfold digit at h
  by_cases h0 : '0'.toUInt8 ≤ c ∧ c ≤ '9'.toUInt8
  · rcases exists_place h0.1 h0.2 with ⟨k, hk, rfl⟩
    exact ⟨k, Or.inl (hdecimal k hk)⟩
  rw [if_neg h0] at h
  by_cases ha : 'a'.toUInt8 ≤ c ∧ c ≤ 'f'.toUInt8
  · rcases exists_place ha.1 ha.2 with ⟨k, hk, rfl⟩
    exact ⟨10 + k, Or.inl (hlower k hk)⟩
  rw [if_neg ha] at h
  by_cases hA : 'A'.toUInt8 ≤ c ∧ c ≤ 'F'.toUInt8
  · rcases exists_place hA.1 hA.2 with ⟨k, hk, rfl⟩
    exact ⟨10 + k, Or.inr (hupper k hk)⟩
  rw [if_neg hA] at h
  simp at h

section Parser

variable {mem : Nat → UInt8}

/-! ## Digits in memory -/

/-- The `n` characters from `p` on are the digits with the given values. -/
def DigitsAt (mem : Nat → UInt8) (p n : Nat) (ds : List Nat) : Prop :=
  List.Forall₂ HexDigit ((List.range' p n).map mem) ds

@[simp]
theorem digitsAt_zero {p : Nat} {ds : List Nat} : DigitsAt mem p 0 ds ↔ ds = [] := by
  simp [DigitsAt]

/-- Digits at a place: the first one and the others. -/
theorem digitsAt_succ {p n : Nat} {ds : List Nat} :
    DigitsAt mem p (n + 1) ds ↔
      ∃ d ds', HexDigit (mem p) d ∧ DigitsAt mem (p + 1) n ds' ∧ ds = d :: ds' := by
  unfold DigitsAt
  rw [List.range'_succ, List.map_cons, List.forall₂_cons_left_iff]

theorem DigitsAt.lt {p n : Nat} {ds : List Nat} (h : DigitsAt mem p n ds) :
    ∀ d ∈ ds, d < 16 := by
  induction n generalizing p ds with
  | zero =>
      rw [digitsAt_zero] at h
      simp [h]
  | succ n ih =>
      rcases digitsAt_succ.mp h with ⟨d, ds', hd, hrest, rfl⟩
      intro d' hd'
      rcases List.mem_cons.mp hd' with rfl | hd'
      · exact hexDigit_lt hd
      · exact ih hrest d' hd'

/-- There is no digit at the terminating zero. -/
theorem DigitsAt.ne_zero {p n : Nat} {ds : List Nat} (h : DigitsAt mem p n ds) {i : Nat}
    (hi : i < n) : mem (p + i) ≠ 0 := by
  induction n generalizing p i ds with
  | zero => exact absurd hi (Nat.not_lt_zero i)
  | succ n ih =>
      rcases digitsAt_succ.mp h with ⟨d, ds', hd, hrest, -⟩
      cases i with
      | zero => exact ne_zero_of_hexDigit hd
      | succ i =>
          rw [Nat.add_comm i 1, ← Nat.add_assoc]
          exact ih hrest (Nat.lt_of_succ_lt_succ hi)

/-- The characters of a string are those in memory. -/
theorem CString.At.map_range' {s : CString} {p : Nat} (hs : s.At mem p) {n : Nat}
    (hn : n ≤ s.chars.length) : (List.range' p n).map mem = s.chars.take n := by
  apply List.ext_getElem?
  intro i
  by_cases hi : i < n
  · have hlt : i < s.chars.length := Nat.lt_of_lt_of_le hi hn
    have hchar := List.getElem?_eq_getElem hlt
    rw [List.getElem?_map, List.getElem?_range' hi, List.getElem?_take_of_lt hi, hchar,
      Option.map_some, Nat.one_mul, hs.chars i _ hchar]
  · simp [hi]

/-- Digits in memory where a string lies are digits of the string. -/
theorem CString.At.startsWith_iff {s : CString} {p : Nat} (hs : s.At mem p) {n : Nat}
    {ds : List Nat} : s.StartsWith n ds ↔ DigitsAt mem p n ds := by
  unfold CString.StartsWith
  constructor
  · rintro ⟨hn, hds⟩
    unfold DigitsAt
    rwa [hs.map_range' hn]
  · intro h
    have hn : n ≤ s.chars.length := by
      by_contra hlt
      exact h.ne_zero (Nat.lt_of_not_le hlt) hs.nul
    refine ⟨hn, ?_⟩
    rw [← hs.map_range' hn]
    exact h

/-! ## The loop -/

/-- The loop goes on behind a digit. -/
theorem gethexLoop_digit {p d : Nat} (hd : HexDigit (mem p) d) (n : Nat) (v : UInt64) :
    gethexLoop mem (n + 1) p v =
      { value := (gethexLoop mem n (p + 1) ((v <<< 4) ||| UInt64.ofNat d)).value
        reads := p :: (gethexLoop mem n (p + 1) ((v <<< 4) ||| UInt64.ofNat d)).reads } := by
  rw [gethexLoop, if_neg (ne_zero_of_hexDigit hd), digit_of_hexDigit hd]

/-- It stops at any other character, the terminating zero included. -/
theorem gethexLoop_stop {p : Nat} (hstop : ∀ d, ¬ HexDigit (mem p) d) (n : Nat) (v : UInt64) :
    gethexLoop mem (n + 1) p v = { value := none, reads := [p] } := by
  rw [gethexLoop]
  by_cases hend : mem p = 0
  · rw [if_pos hend]
  rw [if_neg hend]
  cases hdigit : digit (mem p) with
  | none => rfl
  | some d =>
      rcases exists_hexDigit_of_digit hdigit with ⟨d', hd'⟩
      exact absurd hd' (hstop d')

/-- The loop reads no character behind the end of the string. -/
theorem gethexLoop_reads_le {len : Nat} (hnul : mem len = 0) (n : Nat) {p : Nat} (hp : p ≤ len)
    (v : UInt64) : ∀ r ∈ (gethexLoop mem n p v).reads, r ≤ len := by
  induction n generalizing p v with
  | zero => exact fun r hr => absurd hr List.not_mem_nil
  | succ n ih =>
      intro r hr
      by_cases hdigit : ∃ d, HexDigit (mem p) d
      · rcases hdigit with ⟨d, hd⟩
        -- the string goes on, so its end is still ahead
        have hnext : p + 1 ≤ len := by
          by_contra hlt
          have heq : p = len := by omega
          exact ne_zero_of_hexDigit hd (heq ▸ hnul)
        rw [gethexLoop_digit hd] at hr
        rcases List.mem_cons.mp hr with rfl | hr
        · exact hp
        · exact ih hnext _ r hr
      · rw [gethexLoop_stop (not_exists.mp hdigit), List.mem_singleton] at hr
        rw [hr]
        exact hp

/-- The accumulator with digits pushed into it. -/
def pushDigits (v : UInt64) (ds : List Nat) : UInt64 :=
  ⟨Lib.BitField.pushAll v.toBitVec 4 (ds.map (BitVec.ofNat 64))⟩

@[simp]
theorem pushDigits_nil (v : UInt64) : pushDigits v [] = v :=
  rfl

@[simp]
theorem pushDigits_cons (v : UInt64) (d : Nat) (ds : List Nat) :
    pushDigits v (d :: ds) = pushDigits ((v <<< 4) ||| UInt64.ofNat d) ds :=
  rfl

/-- The loop pushes the digits it finds into its accumulator. -/
theorem gethexLoop_value_of_digitsAt {p n : Nat} {ds : List Nat} (h : DigitsAt mem p n ds)
    (v : UInt64) : (gethexLoop mem n p v).value = some (pushDigits v ds) := by
  induction n generalizing p v ds with
  | zero =>
      rw [digitsAt_zero] at h
      simp [gethexLoop, h]
  | succ n ih =>
      rcases digitsAt_succ.mp h with ⟨d, ds', hd, hrest, rfl⟩
      rw [gethexLoop_digit hd, pushDigits_cons]
      exact ih hrest _

/-- It returns early if one of the characters is no digit. -/
theorem gethexLoop_value_eq_none {p n : Nat} (h : ∀ ds, ¬ DigitsAt mem p n ds) (v : UInt64) :
    (gethexLoop mem n p v).value = none := by
  induction n generalizing p v with
  | zero => exact absurd (digitsAt_zero.mpr rfl) (h [])
  | succ n ih =>
      by_cases hdigit : ∃ d, HexDigit (mem p) d
      · rcases hdigit with ⟨d, hd⟩
        have hrest : ∀ ds, ¬ DigitsAt mem (p + 1) n ds := by
          intro ds hds
          exact h (d :: ds) (digitsAt_succ.mpr ⟨d, ds, hd, hds, rfl⟩)
        rw [gethexLoop_digit hd]
        exact ih hrest _
      · rw [gethexLoop_stop (not_exists.mp hdigit)]

/-- The accumulator has room for 64 bits of the number. -/
theorem toNat_pushDigits_zero {ds : List Nat} (hds : ∀ d ∈ ds, d < 16) :
    (pushDigits 0 ds).toNat = hexValue ds % 2 ^ 64 := by
  have hfits : ∀ x ∈ ds.map (BitVec.ofNat 64), x.toNat < 2 ^ 4 := by
    intro x hx
    rcases List.mem_map.mp hx with ⟨d, hd, rfl⟩
    have hlt := hds d hd
    rw [BitVec.toNat_ofNat]
    omega
  have hvalues : (ds.map (BitVec.ofNat 64)).map BitVec.toNat = ds := by
    rw [List.map_map]
    apply (List.map_congr_left ?_).trans (List.map_id ds)
    intro d hd
    have hlt := hds d hd
    rw [Function.comp_apply, BitVec.toNat_ofNat, id]
    omega
  have hpush := Lib.BitField.toNat_pushAll 0#64 hfits
  rw [hvalues, BitVec.toNat_zero, Nat.mul_zero, Nat.add_zero] at hpush
  exact hpush

/-! ## What is read -/

/-- Digits found are stored and reported. -/
theorem gethex_of_some {p : Nat} {n : Int} {v : UInt64}
    (hvalue : (gethexLoop mem n.toNat p 0).value = some v) (vp : UInt32) :
    gethex vp mem p n =
      { result := 1, vp := v.toUInt32, reads := (gethexLoop mem n.toNat p 0).reads } := by
  simp only [gethex, hvalue]

/-- Without digits nothing is stored. -/
theorem gethex_of_none {p : Nat} {n : Int} (hvalue : (gethexLoop mem n.toNat p 0).value = none)
    (vp : UInt32) :
    gethex vp mem p n =
      { result := 0, vp := vp, reads := (gethexLoop mem n.toNat p 0).reads } := by
  simp only [gethex, hvalue]

/-- A number is stored if all the characters are digits. -/
theorem gethex_of_digitsAt {p n : Nat} {ds : List Nat} (h : DigitsAt mem p n ds) (vp : UInt32) :
    (gethex vp mem p n).result = 1 ∧ (gethex vp mem p n).vp.toNat = hexValue ds % 2 ^ 32 := by
  have hvalue := gethexLoop_value_of_digitsAt h 0
  rw [gethex_of_some hvalue]
  refine ⟨rfl, ?_⟩
  rw [UInt64.toNat_toUInt32, toNat_pushDigits_zero h.lt]
  exact Nat.mod_mod_of_dvd _ (Nat.pow_dvd_pow 2 (by decide))

/-- Otherwise nothing is stored. -/
theorem gethex_of_not_digitsAt {p n : Nat} (h : ∀ ds, ¬ DigitsAt mem p n ds) (vp : UInt32) :
    (gethex vp mem p n).result = 0 ∧ (gethex vp mem p n).vp = vp := by
  have hvalue := gethexLoop_value_eq_none h 0
  rw [gethex_of_none hvalue]
  exact ⟨rfl, rfl⟩

/-- No character behind the terminating one is read. -/
theorem gethex_reads_le {len : Nat} (hnul : mem len = 0) (vp : UInt32) {p : Nat} (hp : p ≤ len)
    (n : Int) : ∀ r ∈ (gethex vp mem p n).reads, r ≤ len := by
  have hloop := gethexLoop_reads_le hnul n.toNat hp 0
  cases hvalue : (gethexLoop mem n.toNat p 0).value with
  | none =>
      rw [gethex_of_none hvalue]
      exact hloop
  | some v =>
      rw [gethex_of_some hvalue]
      exact hloop

/-- Two digits give the byte they write. -/
theorem gethex_two {p hi lo : Nat} (hhi : HexDigit (mem p) hi) (hlo : HexDigit (mem (p + 1)) lo)
    (vp : UInt32) : (gethex vp mem p 2).vp.toUInt8 = UInt8.ofNat (16 * hi + lo) := by
  have hdigits : DigitsAt mem p 2 [hi, lo] :=
    .cons hhi (.cons hlo .nil)
  have hvalue : (gethex vp mem p 2).vp.toNat = hexValue [hi, lo] % 2 ^ 32 :=
    (gethex_of_digitsAt hdigits vp).2
  have hnumber : hexValue [hi, lo] = 16 * hi + lo := by
    simp [hexValue, Nat.ofDigits_cons, Nat.add_comm]
  apply UInt8.toNat_inj.mp
  rw [UInt32.toNat_toUInt8, UInt8.toNat_ofNat', hvalue, hnumber]
  exact Nat.mod_mod_of_dvd _ (Nat.pow_dvd_pow 2 (by decide))

/-- A number is read exactly when the string starts with as many digits; it is taken
modulo `2 ^ 32`, and what was in `*vp` stays there otherwise. -/
theorem gethex_parses {s : CString} {p : Nat} (hs : s.At mem p) (n : Nat) (vp : UInt32) :
    ((gethex vp mem p n).result = 1 ↔ ∃ ds, s.StartsWith n ds) ∧
      (∀ ds, s.StartsWith n ds → (gethex vp mem p n).vp.toNat = hexValue ds % 2 ^ 32) ∧
      ((¬ ∃ ds, s.StartsWith n ds) →
        (gethex vp mem p n).result = 0 ∧ (gethex vp mem p n).vp = vp) ∧
      ∀ r ∈ (gethex vp mem p n).reads, r ≤ p + s.chars.length := by
  simp only [hs.startsWith_iff]
  refine ⟨⟨?_, ?_⟩, ?_, ?_, gethex_reads_le hs.nul vp (Nat.le_add_right p _) n⟩
  · intro hone
    by_contra hnone
    rw [(gethex_of_not_digitsAt (not_exists.mp hnone) vp).1] at hone
    simp at hone
  · rintro ⟨ds, hds⟩
    exact (gethex_of_digitsAt hds vp).1
  · intro ds hds
    exact (gethex_of_digitsAt hds vp).2
  · intro hnone
    exact gethex_of_not_digitsAt (not_exists.mp hnone) vp

/-- Nine digits and something behind them. -/
def longNumber : CString where
  chars := "1aF0cB3d9 z".toList.map Char.toUInt8
  noNul := by decide

/-- The highest of the nine digits is lost. -/
theorem gethex_parses_longNumber :
    (gethex 7 (longNumber.mem fun _ => 0) 0 9).result = 1 ∧
      (gethex 7 (longNumber.mem fun _ => 0) 0 9).vp.toNat = 0xAF0CB3D9 := by
  have hstring := longNumber.at_mem fun _ => 0
  have hdigits : longNumber.StartsWith 9 [1, 10, 15, 0, 12, 11, 3, 13, 9] := by decide
  rcases gethex_parses hstring 9 7 with ⟨hresult, hvalue, -⟩
  exact ⟨hresult.mpr ⟨_, hdigits⟩, hvalue _ hdigits⟩

end Parser

end I2c
end Ls2kMorse
