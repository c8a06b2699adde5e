import Ls2kMorse.Lib.BitField

/-!
# The clock registers

The real-time clock keeps a broken-down time in two registers.  `localrtctime` reads
the fields of the first one with a macro that puts its two bit numbers in order, and
`mkrtctime` packs them, beginning with a register that is not initialised.  The year
has the second register for itself.

Main results:

- Theorem `localrtctime_mkrtctime`: times come back from the registers.
- Theorem `mkrtctime_localrtctime`: registers come back but for the tenths of a
  second.
- Theorem `rtc_packing`: the two together.
-/

namespace Ls2kMorse
namespace Rtc

open Lib.BitField

/-! ## The two functions -/

/-- The macro `__M`. -/
def M (n : Nat) : BitVec 32 :=
  mask n

/-- The macro `__RBF`. -/
def RBF (number : BitVec 32) (n : Nat) : BitVec 32 :=
  number &&& M n

/-- The macro `__BF`. -/
def BFOrdered (number : BitVec 32) (n m : Nat) : BitVec 32 :=
  RBF (number >>> m) (n - m + 1)

/-- `BF`: the bits from `n` to `m` of a number, in either order. -/
def BF (number : BitVec 32) (n m : Nat) : BitVec 32 :=
  if m < n then BFOrdered number n m else BFOrdered number m n

/-- The members of `struct tm` that are used; they are of type `int`. -/
structure Tm where
  tmSec : BitVec 32
  tmMin : BitVec 32
  tmHour : BitVec 32
  tmMday : BitVec 32
  tmMon : BitVec 32
  tmYear : BitVec 32
deriving Repr, DecidableEq

/-- The two words that the clock chip gives. -/
structure Rtctime where
  sysToyread0 : BitVec 32
  sysToyread1 : BitVec 32
deriving Repr, DecidableEq

/-- `localrtctime`: the fields of the time, unpacked from the words. -/
def localrtctime (rtct : Rtctime) : Tm where
  tmSec := BF rtct.sysToyread0 9 4
  tmMin := BF rtct.sysToyread0 15 10
  tmHour := BF rtct.sysToyread0 20 16
  tmMday := BF rtct.sysToyread0 21 25
  tmMon := BF rtct.sysToyread0 26 31 - 1#32
  tmYear := rtct.sysToyread1

/-- `mkrtctime` with the initial contents of the first register. -/
def mkrtctime (uninitialised : BitVec 32) (tm : Tm) : Rtctime :=
  let toyread0 := uninitialised <<< (31 - 26 + 1)
  let toyread0 := toyread0 ||| (tm.tmMon + 1#32)
  let toyread0 := toyread0 <<< (25 - 21 + 1)
  let toyread0 := toyread0 ||| tm.tmMday
  let toyread0 := toyread0 <<< (20 - 16 + 1)
  let toyread0 := toyread0 ||| tm.tmHour
  let toyread0 := toyread0 <<< (15 - 10 + 1)
  let toyread0 := toyread0 ||| tm.tmMin
  let toyread0 := toyread0 <<< (9 - 4 + 1)
  let toyread0 := toyread0 ||| tm.tmSec
  let toyread0 := toyread0 <<< (3 - 0 + 1)
  let toyread0 := toyread0 ||| 0#32
  { sysToyread0 := toyread0, sysToyread1 := tm.tmYear }

/-! ## Fields -/

/-- Either order of the bit numbers gives the field between them. -/
theorem BF_eq_field (x : BitVec 32) :
    BF x 9 4 = field x 4 6 ∧ BF x 15 10 = field x 10 6 ∧ BF x 20 16 = field x 16 5 ∧
      BF x 21 25 = field x 21 5 ∧ BF x 26 31 = field x 26 6 :=
  ⟨rfl, rfl, rfl, rfl, rfl⟩

/-- The word is packed field by field. -/
theorem mkrtctime_eq_push (g : BitVec 32) (tm : Tm) :
    (mkrtctime g tm).sysToyread0 =
      push (push (push (push (push (push g 6 (tm.tmMon + 1#32)) 5 tm.tmMday) 5 tm.tmHour) 6
        tm.tmMin) 6 tm.tmSec) 4 0#32 :=
  rfl

/-- The ranges of the members of a broken-down time. -/
structure Tm.InRange (tm : Tm) : Prop where
  sec : 0 ≤ tm.tmSec.toInt ∧ tm.tmSec.toInt ≤ 60
  min : 0 ≤ tm.tmMin.toInt ∧ tm.tmMin.toInt ≤ 59
  hour : 0 ≤ tm.tmHour.toInt ∧ tm.tmHour.toInt ≤ 23
  mday : 1 ≤ tm.tmMday.toInt ∧ tm.tmMday.toInt ≤ 31
  mon : 0 ≤ tm.tmMon.toInt ∧ tm.tmMon.toInt ≤ 11

/-- A word that is not negative is its number. -/
theorem toNat_of_toInt_nonneg {x : BitVec 32} (h : 0 ≤ x.toInt) : (x.toNat : Int) = x.toInt := by
  have hlt := x.isLt
  rw [BitVec.toInt_eq_toNat_cond] at h ⊢
  by_cases hsign : 2 * x.toNat < 2 ^ 32
  · rw [if_pos hsign]
  · rw [if_neg hsign] at h
    omega

/-- A member in a range that is not negative fits into a field. -/
theorem toNat_lt_of_toInt {x : BitVec 32} {n : Nat} (h : 0 ≤ x.toInt) (hlt : x.toInt < n) :
    x.toNat < n := by
  rw [← toNat_of_toInt_nonneg h] at hlt
  exact Int.ofNat_lt.mp hlt

/-- A field below the top of a word, behind the value pushed last. -/
theorem field_push_of_le (x : BitVec 32) {len : Nat} {v : BitVec 32} (hv : v.toNat < 2 ^ len)
    {lo len' : Nat} (hlo : len ≤ lo) (hfits : lo + len' ≤ 32) :
    field (push x len v) lo len' = field x (lo - len) len' := by
  have habove := field_push_above x hv (lo - len) len' (by omega)
  rwa [Nat.sub_add_cancel hlo] at habove

/-- Times in range come back from the registers. -/
theorem localrtctime_mkrtctime (g : BitVec 32) {tm : Tm} (h : tm.InRange) :
    localrtctime (mkrtctime g tm) = tm := by
  have hsec : tm.tmSec.toNat < 2 ^ 6 :=
    toNat_lt_of_toInt h.sec.1 (Int.lt_of_le_of_lt h.sec.2 (by decide))
  have hmin : tm.tmMin.toNat < 2 ^ 6 :=
    toNat_lt_of_toInt h.min.1 (Int.lt_of_le_of_lt h.min.2 (by decide))
  have hhour : tm.tmHour.toNat < 2 ^ 5 :=
    toNat_lt_of_toInt h.hour.1 (Int.lt_of_le_of_lt h.hour.2 (by decide))
  have hmday : tm.tmMday.toNat < 2 ^ 5 :=
    toNat_lt_of_toInt (Int.le_trans Int.one_nonneg h.mday.1)
      (Int.lt_of_le_of_lt h.mday.2 (by decide))
  have hmon : (tm.tmMon + 1#32).toNat < 2 ^ 6 := by
    have hnat := toNat_of_toInt_nonneg h.mon.1
    have hmax := h.mon.2
    rw [BitVec.toNat_add]
    have hone : (1#32).toNat = 1 := rfl
    omega
  have hzero : (0#32).toNat < 2 ^ 4 := by decide
  -- each field has moved up by the fields pushed behind it
  rcases BF_eq_field (mkrtctime g tm).sysToyread0 with ⟨hBFsec, hBFmin, hBFhour, hBFmday, hBFmon⟩
  have hSec : BF (mkrtctime g tm).sysToyread0 9 4 = tm.tmSec := by
    rw [hBFsec, mkrtctime_eq_push, field_push_of_le _ hzero (by omega) (by omega)]
    exact field_push_self _ hsec (by omega)
  have hMin : BF (mkrtctime g tm).sysToyread0 15 10 = tm.tmMin := by
    rw [hBFmin, mkrtctime_eq_push, field_push_of_le _ hzero (by omega) (by omega),
      field_push_of_le _ hsec (by omega) (by omega)]
    exact field_push_self _ hmin (by omega)
  have hHour : BF (mkrtctime g tm).sysToyread0 20 16 = tm.tmHour := by
    rw [hBFhour, mkrtctime_eq_push, field_push_of_le _ hzero (by omega) (by omega),
      field_push_of_le _ hsec (by omega) (by omega), field_push_of_le _ hmin (by omega) (by omega)]
    exact field_push_self _ hhour (by omega)
  have hMday : BF (mkrtctime g tm).sysToyread0 21 25 = tm.tmMday := by
    rw [hBFmday, mkrtctime_eq_push, field_push_of_le _ hzero (by omega) (by omega),
      field_push_of_le _ hsec (by omega) (by omega), field_push_of_le _ hmin (by omega) (by omega),
      field_push_of_le _ hhour (by omega) (by omega)]
    exact field_push_self _ hmday (by omega)
  have hMon : BF (mkrtctime g tm).sysToyread0 26 31 = tm.tmMon + 1#32 := by
    rw [hBFmon, mkrtctime_eq_push, field_push_of_le _ hzero (by omega) (by omega),
      field_push_of_le _ hsec (by omega) (by omega), field_push_of_le _ hmin (by omega) (by omega),
      field_push_of_le _ hhour (by omega) (by omega), field_push_of_le _ hmday (by omega) (by omega)]
    exact field_push_self _ hmon (by omega)
  unfold localrtctime
  rw [hSec, hMin, hHour, hMday, hMon, BitVec.add_sub_cancel]
  rfl

/-- Clearing the low bits leaves the others. -/
theorem ushiftRight_cleared (x : BitVec 32) : (x &&& ~~~0xF#32) >>> 4 = x >>> 4 := by
  have hmask : 0xF#32 = mask 4 := by decide
  apply BitVec.eq_of_getLsbD_eq
  intro i _
  rw [hmask, BitVec.getLsbD_ushiftRight, BitVec.getLsbD_ushiftRight, BitVec.getLsbD_and,
    BitVec.getLsbD_not, getLsbD_mask]
  by_cases hi : 4 + i < 32
  · simp [hi]
  · simp [BitVec.getLsbD_of_ge x (4 + i) (Nat.le_of_not_lt hi)]

/-- The four low bits are cleared. -/
theorem field_cleared (x : BitVec 32) : field (x &&& ~~~0xF#32) 0 4 = 0#32 := by
  have hmask : 0xF#32 = mask 4 := by decide
  apply BitVec.eq_of_getLsbD_eq
  intro i _
  rw [field, hmask, BitVec.ushiftRight_zero, BitVec.getLsbD_and, BitVec.getLsbD_and,
    BitVec.getLsbD_not, BitVec.getLsbD_zero]
  cases (mask 4 : BitVec 32).getLsbD i with
  | true => simp
  | false => simp

/-- Registers come back, whatever `mkrtctime` begins with, but for the four bits of
the tenths of a second. -/
theorem mkrtctime_localrtctime (g : BitVec 32) (r : Rtctime) :
    mkrtctime g (localrtctime r) =
      { r with sysToyread0 := r.sysToyread0 &&& ~~~0xF#32 } := by
  rcases r with ⟨x, year⟩
  -- the highest field is right whatever was there, and each further one adds its bits
  have hmon := agrees_push_field 26 6 (agrees_zero g (x >>> 32)) (by omega)
  have hmday := agrees_push_field 21 5 hmon (by omega)
  have hhour := agrees_push_field 16 5 hmday (by omega)
  have hmin := agrees_push_field 10 6 hhour (by omega)
  have hsec := agrees_push_field 4 6 hmin (by omega)
  rw [← ushiftRight_cleared] at hsec
  have hword := agrees_push_field 0 4 hsec (by omega)
  rw [field_cleared, BitVec.ushiftRight_zero] at hword
  have hpacked : (mkrtctime g (localrtctime ⟨x, year⟩)).sysToyread0 = x &&& ~~~0xF#32 := by
    rw [mkrtctime_eq_push]
    unfold localrtctime
    rw [BitVec.sub_add_cancel]
    exact hword.eq
  calc mkrtctime g (localrtctime ⟨x, year⟩)
      = ⟨(mkrtctime g (localrtctime ⟨x, year⟩)).sysToyread0, year⟩ := rfl
    _ = ⟨x &&& ~~~0xF#32, year⟩ := by rw [hpacked]

/-- Packing and unpacking undo each other, whatever the register contains when
packing begins. -/
theorem rtc_packing :
    (∀ g (tm : Tm), tm.InRange → localrtctime (mkrtctime g tm) = tm) ∧
      ∀ g (r : Rtctime),
        mkrtctime g (localrtctime r) =
          { r with sysToyread0 := r.sysToyread0 &&& ~~~0xF#32 } :=
  ⟨fun g _ h => localrtctime_mkrtctime g h, mkrtctime_localrtctime⟩

/-- The last second of a year, packed into a register full of ones. -/
theorem rtc_packing_new_year :
    localrtctime (mkrtctime 0xFFFFFFFF#32 ⟨59#32, 59#32, 23#32, 31#32, 11#32, 120#32⟩) =
        ⟨59#32, 59#32, 23#32, 31#32, 11#32, 120#32⟩ ∧
      mkrtctime 0#32 (localrtctime ⟨0x33FFFFFF#32, 120#32⟩) = ⟨0x33FFFFF0#32, 120#32⟩ :=
  ⟨rtc_packing.1 _ _ ⟨by decide, by decide, by decide, by decide, by decide⟩,
    rtc_packing.2 _ _⟩

end Rtc
end Ls2kMorse
