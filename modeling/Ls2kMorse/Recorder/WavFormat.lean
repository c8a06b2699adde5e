import Ls2kMorse.Lib.Riff
import Ls2kMorse.Recorder.WavHeader

/-!
# The header as a RIFF container

`wrtie_header` overwrites five fields of an array that keeps its contents from one
call to the next.  Whatever was called before, the bytes it writes are a RIFF/WAVE
container that is cut off where the data begin.

Main results:

- Theorem `headerAfter_eq`: only the five fields of the array ever change.
- Theorem `emitted_eq_bytes`: the bytes of a call as a container.
- Theorem `wrtieHeader_parses`: what a reader of the header finds.
-/

namespace Ls2kMorse
namespace Recorder

open Lib

/-! ## The array over all calls -/

/-- The static array after a sequence of calls. -/
def headerAfter (calls : List (UInt32 × UInt32)) : Vector UInt8 60 :=
  calls.foldl (fun header call => wrtieHeader header call.1 call.2) header

/-- The bytes that a call writes after the calls before it. -/
def emitted (calls : List (UInt32 × UInt32)) (n fs : UInt32) : List UInt8 :=
  (wrtieHeader (headerAfter calls) n fs).toList

/-- The array with the given values in its five fields. -/
def headerWith (F R B S D : UInt32) : Vector UInt8 60 :=
  #v[0x52, 0x49, 0x46, 0x46,
    converterByte F 0, converterByte F 1, converterByte F 2, converterByte F 3,
    0x57, 0x41, 0x56, 0x45, 0x66, 0x6d, 0x74, 0x20,
    0x14, 0x00, 0x00, 0x00, 0x11, 0x00, 0x01, 0x00,
    converterByte R 0, converterByte R 1, converterByte R 2, converterByte R 3,
    converterByte B 0, converterByte B 1, converterByte B 2, converterByte B 3,
    0x00, 0x01, 0x04, 0x00, 0x02, 0x00, 0xf9, 0x01,
    0x66, 0x61, 0x63, 0x74, 0x04, 0x00, 0x00, 0x00,
    converterByte S 0, converterByte S 1, converterByte S 2, converterByte S 3,
    0x64, 0x61, 0x74, 0x61,
    converterByte D 0, converterByte D 1, converterByte D 2, converterByte D 3]

/-- The literal header, field by field. -/
theorem header_eq : header = headerWith 0x101c 0x1f40 0x1275 0x1f5c 0x0fe8 := by
  decide

section Fields

variable (F R B S D d : UInt32)

theorem patchField_F : patchField (headerWith F R B S D) 4 d = headerWith d R B S D :=
  rfl

theorem patchField_R : patchField (headerWith F R B S D) 24 d = headerWith F d B S D :=
  rfl

theorem patchField_B : patchField (headerWith F R B S D) 28 d = headerWith F R d S D :=
  rfl

theorem patchField_S : patchField (headerWith F R B S D) 48 d = headerWith F R B d D :=
  rfl

theorem patchField_D : patchField (headerWith F R B S D) 56 d = headerWith F R B S d :=
  rfl

end Fields

/-- A call leaves values of its own arguments in all five fields. -/
theorem wrtieHeader_headerWith (F R B S D n fs : UInt32) :
    wrtieHeader (headerWith F R B S D) n fs =
      headerWith (n * 256 + 52) fs (fs * 256 / 505) (n * 505) (n * 256) := by
  unfold wrtieHeader
  simp only [patchField_F, patchField_R, patchField_B, patchField_S, patchField_D]
  rfl

/-- Only the five fields ever change. -/
theorem headerAfter_eq (calls : List (UInt32 × UInt32)) :
    ∃ F R B S D, headerAfter calls = headerWith F R B S D := by
  unfold headerAfter
  rw [header_eq]
  generalize (0x101c : UInt32) = F
  generalize (0x1f40 : UInt32) = R
  generalize (0x1275 : UInt32) = B
  generalize (0x1f5c : UInt32) = S
  generalize (0x0fe8 : UInt32) = D
  induction calls generalizing F R B S D with
  | nil => exact ⟨F, R, B, S, D, rfl⟩
  | cons call calls ih =>
      rw [List.foldl_cons, wrtieHeader_headerWith]
      exact ih _ _ _ _ _

/-- What a call writes does not depend on the calls before it. -/
theorem emitted_eq (calls : List (UInt32 × UInt32)) (n fs : UInt32) :
    emitted calls n fs =
      (headerWith (n * 256 + 52) fs (fs * 256 / 505) (n * 505) (n * 256)).toList := by
  rcases headerAfter_eq calls with ⟨F, R, B, S, D, hheader⟩
  unfold emitted
  rw [hheader, wrtieHeader_headerWith]

/-! ## The bytes as a container -/

/-- The fields of a `fmt ` chunk of 20 bytes. -/
structure WaveFormat where
  formatTag : Nat
  channels : Nat
  samplesPerSec : Nat
  avgBytesPerSec : Nat
  blockAlign : Nat
  bitsPerSample : Nat
  cbSize : Nat
  samplesPerBlock : Nat
deriving Repr, DecidableEq

/-- The bytes of the chunk, each number with its low byte first. -/
def WaveFormat.bytes (w : WaveFormat) : List UInt8 :=
  leBytes 2 w.formatTag ++ leBytes 2 w.channels ++ leBytes 4 w.samplesPerSec ++
    leBytes 4 w.avgBytesPerSec ++ leBytes 2 w.blockAlign ++ leBytes 2 w.bitsPerSample ++
    leBytes 2 w.cbSize ++ leBytes 2 w.samplesPerBlock

/-- Reads the fields of a `fmt ` chunk. -/
def parseFormat (body : List UInt8) : Option WaveFormat :=
  if body.length = 20 then
    some
      { formatTag := leNat (window body 0 2)
        channels := leNat (window body 2 2)
        samplesPerSec := leNat (window body 4 4)
        avgBytesPerSec := leNat (window body 8 4)
        blockAlign := leNat (window body 12 2)
        bitsPerSample := leNat (window body 14 2)
        cbSize := leNat (window body 16 2)
        samplesPerBlock := leNat (window body 18 2) }
  else none

/-- Blocks of 256 bytes with 505 samples of four bits each, in one channel. -/
def adpcmFormat (fs : Nat) : WaveFormat :=
  { formatTag := 17
    channels := 1
    samplesPerSec := fs
    avgBytesPerSec := 256 * fs / 505
    blockAlign := 256
    bitsPerSample := 4
    cbSize := 2
    samplesPerBlock := 505 }

/-- A recording of `n` blocks, with `body` behind the header of its data. -/
def recording (n fs : Nat) (body : List UInt8) : Riff :=
  { size := 256 * n + 52
    form := tag "WAVE"
    chunks := [⟨tag "fmt ", 20, (adpcmFormat fs).bytes⟩, ⟨tag "fact", 4, leBytes 4 (505 * n)⟩,
      ⟨tag "data", 256 * n, body⟩] }

/-- The union holds the value with its lowest byte first. -/
theorem leBytes_toNat (d : UInt32) :
    leBytes 4 d.toNat =
      [converterByte d 0, converterByte d 1, converterByte d 2, converterByte d 3] := by
  simp [leBytes, converterByte, Nat.div_div_eq_div_mul]

/-- The format chunk is parsed back. -/
theorem parseFormat_bytes {fs : Nat} (hfs : 256 * fs < 2 ^ 32) :
    parseFormat (adpcmFormat fs).bytes = some (adpcmFormat fs) := by
  have hrate : leNat (leBytes 4 fs) = fs := leNat_leBytes (by omega)
  have hbytes : leNat (leBytes 4 (256 * fs / 505)) = 256 * fs / 505 := leNat_leBytes (by omega)
  simp only [leBytes] at hrate hbytes
  simp [parseFormat, WaveFormat.bytes, adpcmFormat, leBytes, window, hrate, hbytes]
  decide

/-- The bytes of a call are a recording that is cut off where its data begin. -/
theorem emitted_eq_bytes (calls : List (UInt32 × UInt32)) {n fs : UInt32}
    (hF : 256 * n.toNat + 52 < 2 ^ 31) (hS : 505 * n.toNat < 2 ^ 31)
    (hB : 256 * fs.toNat < 2 ^ 32) (body : List UInt8) :
    emitted calls n fs ++ body = (recording n.toNat fs.toNat body).bytes := by
  have hriff : (n * 256 + 52).toNat = 256 * n.toNat + 52 := by
    rw [UInt32.toNat_add, UInt32.toNat_mul]
    simp
    omega
  have hbytes : (fs * 256 / 505).toNat = 256 * fs.toNat / 505 := by
    rw [UInt32.toNat_div, UInt32.toNat_mul]
    simp
    omega
  have hfact : (n * 505).toNat = 505 * n.toNat := by
    rw [UInt32.toNat_mul]
    simp
    omega
  have hdata : (n * 256).toNat = 256 * n.toNat := by
    rw [UInt32.toNat_mul]
    simp
    omega
  rw [emitted_eq, recording, Riff.bytes, ← hriff, leBytes_toNat]
  simp only [List.flatMap_cons, List.flatMap_nil, Chunk.bytes, WaveFormat.bytes, adpcmFormat,
    ← hbytes, ← hfact, ← hdata, leBytes_toNat, List.append_nil]
  rfl

/-- The header has sixty bytes. -/
theorem length_emitted (calls : List (UInt32 × UInt32)) (n fs : UInt32) :
    (emitted calls n fs).length = 60 := by
  simp [emitted]

/-- A reader of the bytes of a call finds the recording, as far as it is there. -/
theorem parseRiff_emitted (calls : List (UInt32 × UInt32)) {n fs : UInt32}
    (hF : 256 * n.toNat + 52 < 2 ^ 31) (hS : 505 * n.toNat < 2 ^ 31)
    (hB : 256 * fs.toNat < 2 ^ 32) {body : List UInt8} (hbody : body.length ≤ 256 * n.toNat) :
    parseRiff (emitted calls n fs ++ body) = some (recording n.toNat fs.toNat body) := by
  have hid : (tag "fmt ").length = 4 ∧ (tag "fact").length = 4 ∧ (tag "data").length = 4 ∧
      (tag "WAVE").length = 4 := by
    decide
  rcases hid with ⟨hfmt, hfact, hdata, hwave⟩
  have hfit : ChunksFit (recording n.toNat fs.toNat body).chunks := by
    have h20 : 20 < 256 ^ 4 := by decide
    have h4 : 4 < 256 ^ 4 := by decide
    have hsize : 256 * n.toNat < 256 ^ 4 := by omega
    have hlen : (adpcmFormat fs.toNat).bytes.length = 20 := by simp [WaveFormat.bytes]
    exact ⟨hfmt, h20, Nat.le_of_eq hlen, fun _ => hlen, hfact, h4,
      Nat.le_of_eq (length_leBytes 4 _), fun _ => length_leBytes 4 _, hdata, hsize, hbody,
      fun hne => absurd rfl hne, trivial⟩
  rw [emitted_eq_bytes calls hF hS hB]
  exact parseRiff_bytes (by simp only [recording]; omega) hwave hfit

/-- For every sequence of calls and every last pair `(n, fs)` whose fields fit, the
60 bytes of the last call are a RIFF/WAVE container of the declared size
`256 * n + 52`, and its chunks leave no byte out: `fmt ` with 20 bytes, which hold
the rate `fs` and the byte rate `256 * fs / 505`, `fact` with four bytes, which
hold the count `505 * n`, and the header of `data` with the size `256 * n`.  The
calls before do not matter. -/
theorem wrtieHeader_parses (calls : List (UInt32 × UInt32)) {n fs : UInt32}
    (hF : 256 * n.toNat + 52 < 2 ^ 31) (hS : 505 * n.toNat < 2 ^ 31)
    (hB : 256 * fs.toNat < 2 ^ 32) :
    (emitted calls n fs).length = 60 ∧
      (∃ fmt fact data : Chunk,
        parseRiff (emitted calls n fs) =
            some ⟨256 * n.toNat + 52, tag "WAVE", [fmt, fact, data]⟩ ∧
          emitted calls n fs = tag "RIFF" ++ leBytes 4 (256 * n.toNat + 52) ++ tag "WAVE" ++
            (fmt.bytes ++ (fact.bytes ++ data.bytes)) ∧
          (fmt.id = tag "fmt " ∧ fmt.size = 20 ∧ fmt.body.length = 20 ∧
            parseFormat fmt.body = some (adpcmFormat fs.toNat)) ∧
          (fact.id = tag "fact" ∧ fact.size = 4 ∧ fact.body.length = 4 ∧
            leNat fact.body = 505 * n.toNat) ∧
          data.id = tag "data" ∧ data.size = 256 * n.toNat ∧ data.body = []) ∧
      ∀ calls', emitted calls' n fs = emitted calls n fs := by
  have hnil : ([] : List UInt8).length ≤ 256 * n.toNat := Nat.zero_le _
  have hparse := parseRiff_emitted calls hF hS hB hnil
  rw [List.append_nil] at hparse
  have htiles := (parseRiff_tiles hparse).symm
  simp only [Riff.bytes, recording, List.flatMap_cons, List.flatMap_nil, List.append_nil] at htiles
  refine ⟨length_emitted calls n fs, ⟨_, _, _, hparse, htiles, ?_, ?_, rfl, rfl, rfl⟩, ?_⟩
  · exact ⟨rfl, rfl, by simp [WaveFormat.bytes], parseFormat_bytes hB⟩
  · exact ⟨rfl, rfl, length_leBytes _ _, leNat_leBytes (by omega)⟩
  · intro calls'
    rw [emitted_eq, emitted_eq]

/-- Four blocks at 8000 Hz, after two other calls. -/
theorem wrtieHeader_parses_example :
    (emitted [(2, 44100), (7, 16000)] 4 8000).length = 60 ∧
      (∃ fmt fact data : Chunk,
        parseRiff (emitted [(2, 44100), (7, 16000)] 4 8000) =
            some ⟨256 * 4 + 52, tag "WAVE", [fmt, fact, data]⟩ ∧
          emitted [(2, 44100), (7, 16000)] 4 8000 =
            tag "RIFF" ++ leBytes 4 (256 * 4 + 52) ++ tag "WAVE" ++
              (fmt.bytes ++ (fact.bytes ++ data.bytes)) ∧
          (fmt.id = tag "fmt " ∧ fmt.size = 20 ∧ fmt.body.length = 20 ∧
            parseFormat fmt.body = some (adpcmFormat 8000)) ∧
          (fact.id = tag "fact" ∧ fact.size = 4 ∧ fact.body.length = 4 ∧
            leNat fact.body = 505 * 4) ∧
          data.id = tag "data" ∧ data.size = 256 * 4 ∧ data.body = []) ∧
      ∀ calls', emitted calls' 4 8000 = emitted [(2, 44100), (7, 16000)] 4 8000 :=
  wrtieHeader_parses [(2, 44100), (7, 16000)] (by decide) (by decide) (by decide)

end Recorder
end Ls2kMorse
