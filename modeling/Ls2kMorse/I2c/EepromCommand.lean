import Ls2kMorse.I2c.Eeprom
import Ls2kMorse.I2c.Gethex
import Mathlib.Logic.Function.Basic

/-!
# The EEPROM write command

`cmd_eeprom_write` takes the bytes to be written from an argument such as
`00 11 af`.  It guesses their number from the length of the argument and does not
look at what `gethex` returns, so a malformed item repeats the one before it.

Main results:

- Theorem `parseFrom_listed`: a list of two-digit numbers is taken over as it is.
- Theorem `cmdEepromWrite_accepts_iff`: which arguments are treated as they should.
-/

namespace Ls2kMorse
namespace I2c

/-! ## The command -/

/-- The buffer of the command, the places of it that are written and the places of
the argument that are read. -/
structure Parse where
  buf : Nat → UInt8
  stores : List Nat
  reads : List Nat

/-- The loop of `cmd_eeprom_write` at index `i`, with `n` items to go. -/
def parseFrom (mem : Nat → UInt8) : Nat → Nat → Nat → UInt32 → (Nat → UInt8) → Parse
  | 0, _, _, _, buf => { buf := buf, stores := [], reads := [] }
  | n + 1, i, s, v, buf =>
      let item := gethex v mem s 2
      let rest :=
        parseFrom mem n (i + 1) (s + 3) item.vp (Function.update buf i item.vp.toUInt8)
      { rest with stores := i :: rest.stores, reads := item.reads ++ rest.reads }

/-- The number of items that the command expects, an `int`. -/
def CString.itemCount (s : CString) : Int :=
  Int.bmod ((s.chars.length / 3 + 1 : Nat) : Int) 4294967296

/-- What `cmd_eeprom_write` finds in its argument; `v` and `buf` are not initialised. -/
def CString.parse (s : CString) (beyond : Nat → UInt8) (v : UInt32) (buf : Nat → UInt8) : Parse :=
  parseFrom (s.mem beyond) s.itemCount.toNat 0 0 v buf

/-- `cmd_eeprom_write`, without its messages; none of its paths returns anything but
zero. -/
def cmdEepromWrite {σ : Type} (bus : Bus σ) (dataAddr : UInt8) (arg : Option CString)
    (beyond : Nat → UInt8) (v : UInt32) (buf : Nat → UInt8) (dev : σ) : Result σ Int :=
  match arg with
  | none => .done 0 dev
  | some s =>
      (ls2kEepromWritePage bus dataAddr (s.parse beyond v buf).buf s.itemCount dev).follow
        fun _ dev => .done 0 dev

/-! ## The grammar -/

/-- Bytes written with two digits each, with one separator between them. -/
inductive Listed (sep : UInt8 → Prop) : List UInt8 → List UInt8 → Prop
  | one {a b : UInt8} {hi lo : Nat} (ha : HexDigit a hi) (hb : HexDigit b lo) :
      Listed sep [UInt8.ofNat (16 * hi + lo)] [a, b]
  | more {a b c : UInt8} {hi lo : Nat} {bytes chars : List UInt8} (ha : HexDigit a hi)
      (hb : HexDigit b lo) (hc : sep c) (hrest : Listed sep bytes chars) :
      Listed sep (UInt8.ofNat (16 * hi + lo) :: bytes) (a :: b :: c :: chars)

/-- A list of one to 32 bytes. -/
def Grammatical (sep : UInt8 → Prop) (s : CString) : Prop :=
  ∃ bytes, Listed sep bytes s.chars ∧ bytes.length ≤ 32

/-! ## The parser -/

section Parser

variable {mem : Nat → UInt8}

/-- The loop stores the items from `i` on, in order. -/
theorem parseFrom_stores (n i s : Nat) (v : UInt32) (buf : Nat → UInt8) :
    (parseFrom mem n i s v buf).stores = List.range' i n := by
  induction n generalizing i s v buf with
  | zero => rfl
  | succ n ih => rw [parseFrom, List.range'_succ, ih]

/-- The loop reads no character behind the one that ends the string. -/
theorem parseFrom_reads_le {len : Nat} (hnul : mem len = 0) (n i : Nat) {s : Nat}
    (hs : s + 3 * n ≤ len + 3) (v : UInt32) (buf : Nat → UInt8) :
    ∀ r ∈ (parseFrom mem n i s v buf).reads, r ≤ len := by
  induction n generalizing i s v buf with
  | zero => exact fun r hr => absurd hr List.not_mem_nil
  | succ n ih =>
      intro r hr
      rw [parseFrom] at hr
      rcases List.mem_append.mp hr with hr | hr
      · exact gethex_reads_le hnul v (by omega) 2 r hr
      · exact ih (i + 1) (by omega) _ _ r hr

/-- The buffer below the index stays as it is. -/
theorem parseFrom_buf_below (mem : Nat → UInt8) (n i s : Nat) (v : UInt32) (buf : Nat → UInt8)
    {j : Nat} (hj : j < i) : (parseFrom mem n i s v buf).buf j = buf j := by
  induction n generalizing i s v buf with
  | zero => rfl
  | succ n ih =>
      rw [parseFrom]
      have hne : j ≠ i := by omega
      exact (ih (i + 1) (s + 3) _ _ (by omega)).trans (Function.update_of_ne hne _ buf)

/-- A list of two-digit numbers is taken over as it is. -/
theorem parseFrom_listed {sep : UInt8 → Prop} {bytes chars : List UInt8}
    (h : Listed sep bytes chars) (i s : Nat) (v : UInt32) (buf : Nat → UInt8)
    (hmem : ∀ k c, chars[k]? = some c → mem (s + k) = c) :
    (List.range' i bytes.length).map (parseFrom mem bytes.length i s v buf).buf = bytes := by
  have hitem : ∀ {a b : UInt8} {hi lo : Nat} (s : Nat) (v : UInt32), HexDigit a hi →
      HexDigit b lo → mem s = a → mem (s + 1) = b →
        (gethex v mem s 2).vp.toUInt8 = UInt8.ofNat (16 * hi + lo) := by
    rintro a b hi lo s v ha hb rfl rfl
    exact gethex_two ha hb v
  induction h generalizing i s v buf with
  | @one a b hi lo ha hb =>
      have hbyte := hitem s v ha hb (hmem 0 a rfl) (hmem 1 b rfl)
      simp only [List.length_singleton, parseFrom, List.range'_one, List.map_cons, List.map_nil,
        Function.update_self, hbyte]
  | @more a b c hi lo bytes chars ha hb hc hrest ih =>
      have hbyte := hitem s v ha hb (hmem 0 a rfl) (hmem 1 b rfl)
      have hmem' : ∀ k c, chars[k]? = some c → mem (s + 3 + k) = c := by
        intro k c' hk
        rw [Nat.add_assoc]
        apply hmem (3 + k) c'
        rw [Nat.add_comm 3 k]
        exact hk
      rw [List.length_cons, List.range'_succ, List.map_cons, parseFrom]
      have hhead := parseFrom_buf_below mem bytes.length (i + 1) (s + 3)
        (gethex v mem s 2).vp (Function.update buf i (gethex v mem s 2).vp.toUInt8)
        (Nat.lt_succ_self i)
      rw [Function.update_self, hbyte] at hhead
      rw [hbyte, hhead, ih (i + 1) (s + 3) _ _ hmem']

/-- An item has two characters, and a separator stands between two items. -/
theorem Listed.length_chars {sep : UInt8 → Prop} {bytes chars : List UInt8}
    (h : Listed sep bytes chars) : chars.length + 1 = 3 * bytes.length := by
  induction h with
  | one ha hb => rfl
  | more ha hb hc hrest ih =>
      simp only [List.length_cons]
      omega

/-- A list begins with a digit. -/
theorem Listed.exists_hexDigit {sep : UInt8 → Prop} {bytes chars : List UInt8} {c : UInt8}
    (h : Listed sep bytes (c :: chars)) : ∃ d, HexDigit c d := by
  cases h with
  | one ha hb => exact ⟨_, ha⟩
  | more ha hb hc hrest => exact ⟨_, ha⟩

end Parser

/-! ## The command on the bus -/

/-- The byte sent. -/
def Event.written : Event → Option UInt8
  | .write byte _ => some byte
  | .start _ _ | .read _ _ | .stop _ => none

/-- The bytes sent to be stored, behind the address. -/
def dataBytes (es : List Event) : List UInt8 :=
  (es.filterMap Event.written).tail

section Command

variable {σ : Type} (bus : Bus σ)

/-- Behind an address nothing is written yet. -/
theorem dataBytes_i2cSendAddr (dataAddr : UInt8) (dev : σ) :
    dataBytes (i2cSendAddr bus dataAddr dev).events = [] := by
  unfold i2cSendAddr
  rw [Result.events_follow, i2cTxByte_start]
  cases hchip : (bus.start dev CAT24C16_ADDR).1 with
  | false => rfl
  | true =>
      simp only [if_true, Int.lt_irrefl, if_false, Result.events_follow, i2cTxByte_write]
      cases haddr : (bus.write (bus.start dev CAT24C16_ADDR).2 dataAddr).1 with
      | false => rfl
      | true => rfl

/-- A page of no bytes writes none. -/
theorem dataBytes_writePage_nonpos (dataAddr : UInt8) (buf : Nat → UInt8) {count : Int}
    (hcount : count ≤ 0) (dev : σ) :
    dataBytes (ls2kEepromWritePage bus dataAddr buf count dev).events = [] := by
  have hzero : count.toNat = 0 := Int.toNat_of_nonpos hcount
  have haddr := dataBytes_i2cSendAddr bus dataAddr dev
  have hrest : ∀ (ok : Int) dev', ((if ok = 0 then Result.done 0 dev'
      else writePageFrom bus buf 0 count.toNat dev').events).filterMap Event.written = [] := by
    intro ok dev'
    by_cases hok : ok = 0
    · rw [if_pos hok]
      rfl
    · rw [if_neg hok, hzero]
      rfl
  unfold ls2kEepromWritePage dataBytes
  rw [Result.events_follow, List.filterMap_append, hrest, List.append_nil]
  exact haddr

end Command

/-- A page of at least one byte writes it to a device that acknowledges everything. -/
theorem dataBytes_writePage_pos (dataAddr : UInt8) (buf : Nat → UInt8) {count : Int}
    (hcount : 0 < count) :
    dataBytes (ls2kEepromWritePage alwaysAcks dataAddr buf count ()).events ≠ [] := by
  have haddr : i2cSendAddr alwaysAcks dataAddr () =
      { value := 1, dev := (), events := [.start CAT24C16_ADDR true, .write dataAddr true] } := rfl
  obtain ⟨n, hn⟩ : ∃ n, count.toNat = n + 1 := ⟨count.toNat - 1, by omega⟩
  unfold ls2kEepromWritePage dataBytes
  rw [Result.events_follow, haddr, if_neg Int.one_ne_zero, hn, writePageFrom,
    Result.events_follow, i2cTxByte_write]
  exact List.cons_ne_nil (buf 0) _

/-! ## What the command accepts -/

/-- On every bus the command is a call of `ls2k_eeprom_write_page` with these bytes, in
order, and with their number as the count. -/
def PassesOn (s : CString) (beyond : Nat → UInt8) (v : UInt32) (buf : Nat → UInt8)
    (bytes : List UInt8) : Prop :=
  ∃ page : Nat → UInt8, (List.range bytes.length).map page = bytes ∧
    ∀ (σ : Type) (bus : Bus σ) dataAddr dev,
      cmdEepromWrite bus dataAddr (some s) beyond v buf dev =
        (ls2kEepromWritePage bus dataAddr page bytes.length dev).follow fun _ dev => .done 0 dev

/-- The command passes a list of bytes on as it is, writes nothing for an argument
that is none, and stays within its buffer and its argument. -/
def AcceptsExactly (sep : UInt8 → Prop) (s : CString) (beyond : Nat → UInt8) (v : UInt32)
    (buf : Nat → UInt8) : Prop :=
  (∀ bytes, Listed sep bytes s.chars → bytes.length ≤ 32 → PassesOn s beyond v buf bytes) ∧
    (¬ Grammatical sep s → ∀ (σ : Type) (bus : Bus σ) dataAddr dev,
      dataBytes (cmdEepromWrite bus dataAddr (some s) beyond v buf dev).events = []) ∧
    (∀ i ∈ (s.parse beyond v buf).stores, i < 32) ∧
    ∀ p ∈ (s.parse beyond v buf).reads, p ≤ s.chars.length

/-- The items counted are those listed. -/
theorem Listed.itemCount {sep : UInt8 → Prop} {s : CString} {bytes : List UInt8}
    (h : Listed sep bytes s.chars) (hlen : bytes.length ≤ 32) :
    s.itemCount = bytes.length := by
  have hchars := h.length_chars
  have hitems : s.chars.length / 3 + 1 = bytes.length := by omega
  unfold CString.itemCount
  rw [hitems]
  apply Int.bmod_eq_of_le
  · omega
  · omega

/-- At most every third character begins an item. -/
theorem CString.itemCount_le (s : CString) : s.itemCount ≤ (s.chars.length / 3 + 1 : Nat) := by
  unfold CString.itemCount
  have hmod := Int.bmod_eq_emod ((s.chars.length / 3 + 1 : Nat) : Int) 4294967296
  by_cases hwrap : ((s.chars.length / 3 + 1 : Nat) : Int) % (4294967296 : Nat) ≥
      ((4294967296 : Nat) + 1) / 2
  · rw [if_pos hwrap] at hmod
    omega
  · rw [if_neg hwrap] at hmod
    omega

/-- No character behind the one that ends the argument is read. -/
theorem parse_reads_le (s : CString) (beyond : Nat → UInt8) (v : UInt32) (buf : Nat → UInt8) :
    ∀ p ∈ (s.parse beyond v buf).reads, p ≤ s.chars.length := by
  have hcount := s.itemCount_le
  have hnul := (s.at_mem beyond).nul
  rw [Nat.zero_add] at hnul
  apply parseFrom_reads_le hnul
  omega

/-- Each item is stored once, in order. -/
theorem parse_stores (s : CString) (beyond : Nat → UInt8) (v : UInt32) (buf : Nat → UInt8) :
    (s.parse beyond v buf).stores = List.range s.itemCount.toNat := by
  unfold CString.parse
  rw [parseFrom_stores, List.range_eq_range']

/-- The buffer holds the bytes that the argument lists. -/
theorem parse_listed {sep : UInt8 → Prop} {s : CString} {bytes : List UInt8}
    (h : Listed sep bytes s.chars) (hlen : bytes.length ≤ 32) (beyond : Nat → UInt8)
    (v : UInt32) (buf : Nat → UInt8) :
    (List.range bytes.length).map (s.parse beyond v buf).buf = bytes := by
  have hparse := parseFrom_listed h 0 0 v buf (s.at_mem beyond).chars
  unfold CString.parse
  rw [h.itemCount hlen, Int.toNat_natCast, List.range_eq_range']
  exact hparse

/-- The events of the command are those of the page write. -/
theorem events_cmdEepromWrite {σ : Type} (bus : Bus σ) (dataAddr : UInt8) (s : CString)
    (beyond : Nat → UInt8) (v : UInt32) (buf : Nat → UInt8) (dev : σ) :
    (cmdEepromWrite bus dataAddr (some s) beyond v buf dev).events =
      (ls2kEepromWritePage bus dataAddr (s.parse beyond v buf).buf s.itemCount dev).events := by
  rw [cmdEepromWrite, Result.events_follow, Result.events_done, List.append_nil]

/-- Whatever may stand between the numbers: the command treats its argument as it
should exactly when it is a list of one to 32 bytes, or so long that the number of
items is not positive as an `int`. -/
theorem cmdEepromWrite_accepts_iff (sep : UInt8 → Prop) (s : CString) (beyond : Nat → UInt8)
    (v : UInt32) (buf : Nat → UInt8) :
    AcceptsExactly sep s beyond v buf ↔ Grammatical sep s ∨ s.itemCount ≤ 0 := by
  constructor
  · rintro ⟨-, hnone, -⟩
    by_contra hneither
    rw [not_or, Int.not_le] at hneither
    rcases hneither with ⟨hbad, hcount⟩
    have hevents := hnone hbad Unit alwaysAcks 0 ()
    rw [events_cmdEepromWrite] at hevents
    exact dataBytes_writePage_pos 0 (s.parse beyond v buf).buf hcount hevents
  · intro h
    refine ⟨?_, ?_, ?_, parse_reads_le s beyond v buf⟩
    · intro bytes hbytes hlen
      refine ⟨_, parse_listed hbytes hlen beyond v buf, ?_⟩
      intro σ bus dataAddr dev
      rw [cmdEepromWrite, hbytes.itemCount hlen]
    · intro hbad σ bus dataAddr dev
      rw [events_cmdEepromWrite]
      exact dataBytes_writePage_nonpos bus dataAddr _ (h.resolve_left hbad) dev
    · rw [parse_stores]
      intro i hi
      have hi := List.mem_range.mp hi
      rcases h with ⟨bytes, hbytes, hlen⟩ | hcount
      · rw [hbytes.itemCount hlen] at hi
        omega
      · omega

/-- The argument `00 zz`. -/
def malformed : CString where
  chars := [0x30, 0x30, 0x20, 0x7A, 0x7A]
  noNul := by decide

/-- Its second item repeats the first one: two bytes are written. -/
theorem cmdEepromWrite_malformed :
    ¬ Grammatical (fun c => c = 0x20) malformed ∧
      (cmdEepromWrite alwaysAcks 0x10 (some malformed) (fun _ => 0) 0 (fun _ => 0) ()).events =
        [.start 0xA0 true, .write 0x10 true, .write 0x00 true, .write 0x00 true, .stop 0] ∧
      ¬ AcceptsExactly (fun c => c = 0x20) malformed (fun _ => 0) 0 (fun _ => 0) := by
  have hbad : ¬ Grammatical (fun c => c = 0x20) malformed := by
    rintro ⟨bytes, hbytes, -⟩
    generalize hchars : malformed.chars = chars at hbytes
    cases hbytes with
    | one ha hb => simp [malformed] at hchars
    | more ha hb hc hrest =>
        simp only [malformed, List.cons.injEq] at hchars
        rcases hchars with ⟨-, -, -, rfl⟩
        rcases hrest.exists_hexDigit with ⟨d, hd⟩
        have hsome := digit_of_hexDigit hd
        have hnone : digit 0x7A = none := rfl
        rw [hnone] at hsome
        simp at hsome
  have hevents : (cmdEepromWrite alwaysAcks 0x10 (some malformed) (fun _ => 0) 0 (fun _ => 0)
      ()).events =
        [.start 0xA0 true, .write 0x10 true, .write 0x00 true, .write 0x00 true, .stop 0] := by
    decide
  refine ⟨hbad, hevents, ?_⟩
  rintro ⟨-, hnone, -⟩
  have hnothing := hnone hbad Unit alwaysAcks 0x10 ()
  rw [hevents] at hnothing
  exact List.cons_ne_nil _ _ hnothing

end I2c
end Ls2kMorse
