import Ls2kMorse.Spi.Codec

/-!
# The recording thread on the wires

`vs1003_start_record_thread` reads the FIFO of the codec through `read_register`, a
frame on the shared controller for each word.  Other threads use the converter on the
same controller between these frames.

Main results:

- Theorem `WiredSession.abs_step`: on the wires a step of the thread is its step on the
  FIFO, and a call of the converter's driver is none.
- Theorem `recordThread_onWires`: whatever calls come in between, the callback gets the
  words of the codec in order.
-/

namespace Ls2kMorse
namespace Recorder

open Spi

/-- The register that the recorded words are read from. -/
def SCI_HDAT0 : UInt8 := 0x8

/-- The register that counts the recorded words. -/
def SCI_HDAT1 : UInt8 := 0x9

/-- The codec while it records: `SCI_HDAT1` is the fill of its FIFO, and reading
`SCI_HDAT0` takes a word. -/
def fifoChip : Chip (List UInt16) where
  read reg fifo :=
    if reg = SCI_HDAT1 then (UInt16.ofNat fifo.length, fifo)
    else if reg = SCI_HDAT0 then (fifo.headD 0, fifo.tail)
    else (0, fifo)
  write _ _ fifo := fifo
  data _ fifo := fifo

/-- The thread and what its words come from: the controller with the codec behind it. -/
structure WiredSession where
  pc : ThreadPc
  board : Board (List UInt16)
  db : List UInt8
  buffers : List (List UInt8)
  popped : List UInt16
  appended : List UInt16

/-- A step of the thread, words that the codec appends, or a call of the converter's
driver in another thread. -/
inductive WiredAction where
  | thread
  | append (words : List UInt16)
  | adc (call : Call)

/-- `read_register` on the controller. -/
def Board.readRegister (b : Board (List UInt16)) (reg : UInt8) :
    UInt16 × Board (List UInt16) :=
  let (value, b) := b.use fifoChip (.codec (.readRegister reg))
  (value.getD 0, b)

namespace WiredSession

/-- The thread at its first poll. -/
def init (board : Board (List UInt16)) (db : Vector UInt8 512) : WiredSession where
  pc := .poll
  board := board
  db := db.toList
  buffers := []
  popped := []
  appended := []

/-- One action. -/
def step (s : WiredSession) : WiredAction → WiredSession
  | .append words =>
      { s with
        board.wired.chip := s.board.wired.chip ++ words
        appended := s.appended ++ words }
  | .adc call => { s with board := (s.board.use fifoChip (.adc call)).2 }
  | .thread =>
      match s.pc with
      | .poll =>
          let (t, board) := Board.readRegister s.board SCI_HDAT1
          { s with pc := .test t.toNat, board := board }
      | .test t =>
          if t ≥ VS1003_ADPCM_BATCH_SIZE then
            if t ≥ 896 then { s with pc := .poll } else { s with pc := .pop t 0 }
          else { s with pc := .poll }
      | .pop t i =>
          if i < VS1003_ADPCM_BATCH_SIZE * 2 then
            let (w, board) := Board.readRegister s.board SCI_HDAT0
            { s with
              pc := .pop t (i + 2)
              board := board
              db := (s.db.set i (w >>> 8).toUInt8).set (i + 1) (w &&& 0xFF).toUInt8
              popped := s.popped ++ [w] }
          else
            { s with
              pc := .test (t - VS1003_ADPCM_BATCH_SIZE)
              buffers := s.buffers ++ [s.db] }

/-- The thread on the FIFO behind the wires. -/
def abs (s : WiredSession) : Session where
  pc := s.pc
  fifo := s.board.wired.chip
  db := s.db
  buffers := s.buffers
  popped := s.popped
  appended := s.appended

end WiredSession

/-- What an action is on the FIFO; a call of the converter's driver is nothing. -/
def WiredAction.onFifo : WiredAction → Option Action
  | .thread => some .thread
  | .append words => some (.append words)
  | .adc _ => none

/-- A register read on the wires is one of the FIFO. -/
theorem readRegister_fifo {b : Board (List UInt16)} (hb : b.Ready) (reg : UInt8) :
    (Board.readRegister b reg).1 = (fifoChip.read reg b.wired.chip).1 ∧
      (Board.readRegister b reg).2.wired.chip = (fifoChip.read reg b.wired.chip).2 ∧
      (Board.readRegister b reg).2.Ready := by
  have hsim := simulates_use fifoChip
  have houtput := hsim.output b (.codec (.readRegister reg)) hb trivial
  refine ⟨?_, hsim.state b (.codec (.readRegister reg)) hb trivial,
    hsim.keeps b (.codec (.readRegister reg)) hb trivial⟩
  unfold Board.readRegister
  simp only [houtput]
  rfl

namespace WiredSession

/-- On the wires a step of the thread is its step on the FIFO, and a call of the
converter's driver is none. -/
theorem abs_step {s : WiredSession} (hs : s.board.Ready) (a : WiredAction) :
    (s.step a).board.Ready ∧ (s.step a).abs = a.onFifo.elim s.abs s.abs.step := by
  cases a with
  | append words =>
      exact ⟨⟨⟨⟨hs.ready.high, hs.ready.frame⟩, hs.ready.fifo⟩, hs.started⟩, rfl⟩
  | adc call =>
      have hsim := simulates_use fifoChip
      have hchip := hsim.state s.board (.adc call) hs trivial
      refine ⟨hsim.keeps s.board (.adc call) hs trivial, ?_⟩
      change ({ s with board := (s.board.use fifoChip (.adc call)).2 } : WiredSession).abs = s.abs
      unfold abs
      simp only [hchip]
      rfl
  | thread =>
      have hthread : WiredAction.thread.onFifo.elim s.abs s.abs.step = s.abs.step .thread := rfl
      rw [hthread]
      cases hpc : s.pc with
      | poll =>
          rcases readRegister_fifo hs SCI_HDAT1 with ⟨hvalue, hchip, hready⟩
          have hlevel : fifoChip.read SCI_HDAT1 s.board.wired.chip =
              (UInt16.ofNat s.board.wired.chip.length, s.board.wired.chip) := rfl
          rw [hlevel] at hvalue hchip
          simp only [step, hpc, abs, Session.step, readRegister_eq, hvalue, hchip]
          exact ⟨hready, trivial⟩
      | test t =>
          simp only [step, hpc, abs, Session.step]
          split_ifs <;> exact ⟨hs, rfl⟩
      | pop t i =>
          rcases readRegister_fifo hs SCI_HDAT0 with ⟨hvalue, hchip, hready⟩
          have hword : fifoChip.read SCI_HDAT0 s.board.wired.chip =
              (s.board.wired.chip.headD 0, s.board.wired.chip.tail) := rfl
          rw [hword] at hvalue hchip
          by_cases hi : i < VS1003_ADPCM_BATCH_SIZE * 2
          · simp only [step, hpc, abs, Session.step, if_pos hi, readRegister_eq, hvalue, hchip]
            exact ⟨hready, trivial⟩
          · simp only [step, hpc, abs, Session.step, if_neg hi]
            exact ⟨hs, trivial⟩

/-- Whole runs. -/
theorem abs_run {s : WiredSession} (hs : s.board.Ready) (actions : List WiredAction) :
    (actions.foldl step s).board.Ready ∧
      (actions.foldl step s).abs =
        (actions.filterMap WiredAction.onFifo).foldl Session.step s.abs := by
  induction actions generalizing s with
  | nil => exact ⟨hs, rfl⟩
  | cons a actions ih =>
      rcases abs_step hs a with ⟨hready, hstep⟩
      rw [List.foldl_cons]
      rcases ih hready with ⟨hready', hrun⟩
      refine ⟨hready', ?_⟩
      rw [hrun, hstep]
      cases h : a.onFifo with
      | none => rw [List.filterMap_cons_none h, Option.elim_none]
      | some action => rw [List.filterMap_cons_some h, Option.elim_some, List.foldl_cons]

end WiredSession

/-- Behind the complete batches there is less than another one, or just one. -/
theorem Session.Stands.length_le {s : Session} {pending : List UInt16} (h : s.Stands pending) :
    pending.length ≤ 256 := by
  unfold Session.Stands at h
  cases hpc : s.pc with
  | poll => simp [hpc] at h; simp [h]
  | test t => simp [hpc] at h; simp [h.1]
  | pop t i =>
      simp only [hpc] at h
      omega

/-- From a state between two uses of the controller, however steps of the thread, appended
words, settings of the converter and conversions follow each other: the run is one of the
thread on the FIFO, the words that were read and those still in the FIFO are the words of
the start and the appended ones in order, and the buffers of the callback are whole
batches of the words that were read, up to the last 256. -/
theorem recordThread_onWires {board : Board (List UInt16)} (hb : board.Ready)
    (db : Vector UInt8 512) (actions : List WiredAction) :
    let s := actions.foldl WiredSession.step (WiredSession.init board db)
    s.abs = recordThread board.wired.chip db (actions.filterMap WiredAction.onFifo) ∧
      s.popped ++ s.board.wired.chip =
        board.wired.chip ++ (actions.filterMap WiredAction.onFifo).flatMap Action.words ∧
      ∃ (batches : List (List UInt16)) (pending : List UInt16),
        s.popped = batches.flatten ++ pending ∧ (∀ batch ∈ batches, batch.length = 256) ∧
          pending.length ≤ 256 ∧
          s.buffers = batches.map fun batch => batch.flatMap wordBytes := by
  intro s
  have hrun : s.abs = recordThread board.wired.chip db (actions.filterMap WiredAction.onFifo) :=
    (WiredSession.abs_run hb actions).2
  have hinv := (recordThread_triple board.wired.chip (actions.filterMap WiredAction.onFifo) _
    (Session.Invariant.init board.wired.chip db)).2
  have happended := appended_recordThread board.wired.chip db
    (actions.filterMap WiredAction.onFifo)
  change Session.Invariant board.wired.chip
    (recordThread board.wired.chip db (actions.filterMap WiredAction.onFifo)) at hinv
  rw [← hrun] at hinv happended
  rcases hinv with ⟨horder, -, batches, pending, hpopped, hbatches, hbuffers, hstands⟩
  refine ⟨hrun, ?_, batches, pending, hpopped, hbatches, hstands.length_le, hbuffers⟩
  rw [← happended]
  exact horder

set_option maxRecDepth 4000 in
/-- A conversion between two steps of the thread, after `spi_init` and `ads1118_begin`, and
a batch of 256 words for the callback. -/
theorem recordThread_onWires_conversion :
    let board : Board (List UInt16) := ⟨⟨⟨0xff, 0⟩, [], 0, 0, [], [], []⟩, ads1118Begin⟩
    let actions : List WiredAction := .append (List.replicate 300 0x1234) ::
      .adc (.getADCValue 4) :: List.replicate 259 .thread
    let db : Vector UInt8 512 := Vector.replicate 512 0
    let s := actions.foldl WiredSession.step (WiredSession.init board db)
    (s.abs = recordThread board.wired.chip db (actions.filterMap WiredAction.onFifo) ∧
      s.popped ++ s.board.wired.chip =
        board.wired.chip ++ (actions.filterMap WiredAction.onFifo).flatMap Action.words ∧
      ∃ (batches : List (List UInt16)) (pending : List UInt16),
        s.popped = batches.flatten ++ pending ∧ (∀ batch ∈ batches, batch.length = 256) ∧
          pending.length ≤ 256 ∧
          s.buffers = batches.map fun batch => batch.flatMap wordBytes) ∧
      s.buffers.length = 1 := by
  intro board actions db s
  have hb : board.Ready := ⟨⟨⟨by decide, rfl⟩, rfl⟩, rfl⟩
  have hrun := recordThread_onWires hb db actions
  refine ⟨hrun, ?_⟩
  have hlength : s.abs.buffers.length = 1 := by
    rw [hrun.1]
    decide
  exact hlength

end Recorder
end Ls2kMorse
