import Ls2kMorse.Net.Mii
import Ls2kMorse.Net.Recovery

/-!
# The supervision of the link

A timer calls `synopGMAC_linux_cable_unplug_function` every second.  It asks the PHY for
the mode of the link and configures the MAC when that mode is a new one.  A fatal bus error
resets the controller and configures it again, from the two fields in which the last
answer of the PHY stands.

Main results:

- Theorem `Agrees.run`: a run of the driver is one of the supervisor, which knows modes
  instead of registers.
- Theorem `macMode_run`: when the MAC works in the mode of the link.
- Theorem `dmaControl_run`: what a fatal bus error leaves of the settings of the DMA.
-/

namespace Ls2kMorse
namespace Net

open Lib.RegisterMask

/-! ## The functions as the source computes them -/

/-- The members of the device structure that concern the link, and the registers. -/
structure Gmac where
  duplexMode : BitVec 32
  speed : BitVec 32
  linkState : BitVec 32
  regs : MacReg → BitVec 32

/-- The device after a list of register writes. -/
def Gmac.write (s : Gmac) (writes : List MacWrite) : Gmac :=
  { s with regs := run writes s.regs }

theorem Gmac.regs_write (s : Gmac) (writes : List MacWrite) :
    (s.write writes).regs = run writes s.regs :=
  rfl

/-- `synopGMAC_mac_init` on the duplex mode and the speed of the device structure. -/
def Gmac.macInit (s : Gmac) : Gmac :=
  s.write (Net.macInit s.duplexMode s.speed)

section Functions

variable {σ : Type} (mdioRead : Nat → σ → BitVec 16 × σ) (supportsGmii : Bool)

/-- `synopGMAC_check_phy_init`: reads the link and the negotiated mode into the device
structure. -/
def checkPhyInit (s : Gmac) (phy : σ) : BitVec 32 × Gmac × σ :=
  let (ok, phy) := miiLinkOk mdioRead phy
  if ok then
    let (cmd, phy) := miiEthtoolGset mdioRead supportsGmii phy
    let duplexMode := if cmd.duplex = DUPLEX_FULL then FULLDUPLEX else HALFDUPLEX
    let speed :=
      if cmd.speed = SPEED_1000 then SPEED1000
      else if cmd.speed = SPEED_100 then SPEED100
      else SPEED10
    (speed ||| duplexMode <<< 4, { s with duplexMode := duplexMode, speed := speed }, phy)
  else
    (0#32, { s with duplexMode := FULLDUPLEX, speed := SPEED100 }, phy)

/-- `synopGMAC_linux_cable_unplug_function`. -/
def cableUnplugFunction (s : Gmac) (phy : σ) : Gmac × σ :=
  let (ok, phy) := miiLinkOk mdioRead phy
  if ok then
    let (data, s, phy) := checkPhyInit mdioRead supportsGmii s phy
    if s.linkState ≠ data then
      (Gmac.macInit { s with linkState := data }, phy)
    else (s, phy)
  else
    ({ s with duplexMode := 0#32, speed := 0#32, linkState := 0#32 }, phy)

/-- What `eth_init` does to the link: `synopGMAC_attach` clears the device structure, and
`reset` is what the controller has in its registers behind `synopGMAC_reset`. -/
def Gmac.ethInit (reset : MacReg → BitVec 32) (phy : σ) : Gmac × σ :=
  let s : Gmac := { duplexMode := 0#32, speed := 0#32, linkState := 0#32, regs := reset }
  let s := s.write [dmaControlInit (DmaStoreAndForward ||| DmaTxSecondFrame |||
    DmaRxThreshCtrl128)]
  let (_, s, phy) := checkPhyInit mdioRead supportsGmii s phy
  let s := s.macInit.write (pauseControl ++ [enableDmaRx, enableDmaTx])
  let (_, s, phy) := checkPhyInit mdioRead supportsGmii s phy
  (s.macInit, phy)

/-- What `eth_rx_irq` does to these registers. -/
def Gmac.ethRxIrq (reset : MacReg → BitVec 32) (s : Gmac) (dmaStatusReg data : BitVec 32)
    (powerDown : Bool) : Gmac :=
  if dmaStatusReg = 0 then s
  else
    let interrupt := getInterruptType data
    let s :=
      if interrupt &&& synopGMACDmaError ≠ 0 then
        let s := s.write [disableDmaTx, disableDmaRx]
        let s := Gmac.write { s with regs := reset } [dmaControlInit DmaStoreAndForward]
        s.macInit.write [enableDmaRx, enableDmaTx]
      else s
    if interrupt &&& synopGMACDmaTxStopped ≠ 0 ∧ powerDown = false then
      s.write [disableDmaTx, enableDmaTx]
    else s

/-- What runs besides the transfers: the timer of the link and the interrupts. -/
inductive LinkEvent where
  | linkTimer
  | ethRxIrq (dmaStatusReg data : BitVec 32) (powerDown : Bool)
deriving Repr, DecidableEq

/-- One event of a run: the PHY changes, the timer looks, or an interrupt resets the
chip. -/
def linkStep (reset : MacReg → BitVec 32) : Gmac × σ → LinkEvent → Gmac × σ
  | (s, phy), .linkTimer => cableUnplugFunction mdioRead supportsGmii s phy
  | (s, phy), .ethRxIrq dmaStatusReg data powerDown =>
      (s.ethRxIrq reset dmaStatusReg data powerDown, phy)

end Functions

/-! ## The supervisor -/

/-- What the timer finds: no link, one that is gone at the second look, or a mode. -/
inductive Reading where
  | noLink
  | lost
  | link (m : Mode)
deriving Repr, DecidableEq

/-- The link as last reported, the mode for the next configuration, the mode of the last
one, and whether there was one for 100 Mb/s since the controller was reset. -/
structure Supervisor where
  link : Option Mode
  fields : Mode
  mode : Mode
  fast : Bool
deriving Repr, DecidableEq

/-- The MAC is initialised with the fields of the device. -/
def Supervisor.configure (a : Supervisor) : Supervisor :=
  { a with mode := a.fields, fast := a.fast || decide (a.fields.rate = .hundred) }

/-- What a look at the PHY leaves in the fields. -/
def Supervisor.look (a : Supervisor) : Reading → Supervisor
  | .noLink => { a with link := none, fields := ⟨false, .ten⟩ }
  | .lost =>
      if a.link = none then { a with fields := ⟨true, .hundred⟩ }
      else Supervisor.configure { a with link := none, fields := ⟨true, .hundred⟩ }
  | .link m =>
      if a.link = some m then { a with fields := m }
      else Supervisor.configure { a with link := some m, fields := m }

/-- A reset takes the bit for 100 Mb/s to its value behind the reset. -/
def Supervisor.restart (fastReset : Bool) (a : Supervisor) : Supervisor :=
  Supervisor.configure { a with fast := fastReset }

section Readings

variable {σ : Type} (mdioRead : Nat → σ → BitVec 16 × σ) (supportsGmii : Bool)

/-- What `synopGMAC_check_phy_init` finds. -/
def readPhy (phy : σ) : Option Mode × σ :=
  let (ok, phy) := miiLinkOk mdioRead phy
  if ok then
    let (cmd, phy) := miiEthtoolGset mdioRead supportsGmii phy
    (some cmd.mode, phy)
  else (none, phy)

/-- What the timer finds. -/
def readLink (phy : σ) : Reading × σ :=
  let (ok, phy) := miiLinkOk mdioRead phy
  if ok then
    match readPhy mdioRead supportsGmii phy with
    | (some m, phy) => (.link m, phy)
    | (none, phy) => (.lost, phy)
  else (.noLink, phy)

/-- The same events on the abstract supervisor. -/
def superviseStep (fastReset : Bool) : Supervisor × σ → LinkEvent → Supervisor × σ
  | (a, phy), .linkTimer =>
      let (found, phy) := readLink mdioRead supportsGmii phy
      (a.look found, phy)
  | (a, phy), .ethRxIrq dmaStatusReg data _ =>
      if dmaStatusReg = 0 then (a, phy)
      else if getInterruptType data &&& synopGMACDmaError ≠ 0 then (a.restart fastReset, phy)
      else (a, phy)

/-- The supervisor behind `eth_init`, which configures the MAC twice. -/
def Supervisor.init (fastReset : Bool) (phy : σ) : Supervisor × σ :=
  let (first, phy) := readPhy mdioRead supportsGmii phy
  let (second, phy) := readPhy mdioRead supportsGmii phy
  let unplugged : Mode := ⟨true, .hundred⟩
  let a : Supervisor :=
    { link := none, fields := first.getD unplugged, mode := unplugged, fast := fastReset }
  (Supervisor.configure { a.configure with fields := second.getD unplugged }, phy)

end Readings

/-! ## Modes and registers -/

/-- The value of the duplex field for a mode. -/
def duplexOf (m : Mode) : BitVec 32 :=
  if m.full then FULLDUPLEX else HALFDUPLEX

/-- The value of the speed field for a mode. -/
def speedOf (m : Mode) : BitVec 32 :=
  match m.rate with
  | .ten => SPEED10
  | .hundred => SPEED100
  | .thousand => SPEED1000

/-- The value of `LinkState`. -/
def linkCode : Option Mode → BitVec 32
  | none => 0#32
  | some m => speedOf m ||| duplexOf m <<< 4

@[simp]
theorem modeOf_duplexOf_speedOf (m : Mode) : modeOf (duplexOf m) (speedOf m) = m := by
  obtain ⟨full, rate⟩ := m
  cases full <;> cases rate <;> rfl

/-- The state of the link tells its mode. -/
theorem linkCode_injective : Function.Injective linkCode := by
  intro l l' h
  have hdecode : ∀ l, (if linkCode l = 0#32 then none
      else some (modeOf (linkCode l >>> 4) (linkCode l &&& 15#32))) = l := by
    intro l
    cases l with
    | none => rfl
    | some m =>
        obtain ⟨full, rate⟩ := m
        cases full <;> cases rate <;> rfl
  rw [← hdecode l, ← hdecode l', h]

/-- The bit for 100 Mb/s. -/
def hasFast (regs : MacReg → BitVec 32) : Bool :=
  decide (regs .gmacConfig &&& GmacFESpeed100 ≠ 0#32)

/-- The registers are what a configuration for a mode makes of them. -/
def Configured (m : Mode) (regs : MacReg → BitVec 32) : Prop :=
  ∀ r, (configured false m r).apply (regs r) = regs r

/-- The mode in which the MAC works. -/
def macMode (regs : MacReg → BitVec 32) : Mode where
  full := decide (regs .gmacConfig &&& GmacDuplex ≠ 0#32)
  rate :=
    if regs .gmacConfig &&& GmacMiiGmii = 0#32 then .thousand
    else if hasFast regs then .hundred
    else .ten

/-- A configuration keeps neither the bit of the duplex mode nor that of the port. -/
theorem keep_and_eq_zero (fast : Bool) (m : Mode) {bits : BitVec 32}
    (hbits : bits = GmacDuplex ∨ bits = GmacMiiGmii) :
    (configured fast m .gmacConfig).keep &&& bits = 0#32 := by
  obtain ⟨full, rate⟩ := m
  rcases hbits with rfl | rfl
  · cases fast <;> cases full <;> cases rate <;> rfl
  · cases fast <;> cases full <;> cases rate <;> rfl

/-- A configuration for another mode keeps the fast bit. -/
theorem keep_fast (m : Mode) :
    (configured false m .gmacConfig).keep &&& GmacFESpeed100 = GmacFESpeed100 := by
  obtain ⟨full, rate⟩ := m
  cases full <;> cases rate <;> rfl

/-- The mode that the configured registers show. -/
theorem Configured.macMode_eq {m : Mode} {regs : MacReg → BitVec 32} (h : Configured m regs) :
    macMode regs =
      { full := m.full
        rate :=
          if m.rate = .thousand then .thousand else if hasFast regs then .hundred else .ten } := by
  have hduplex :=
    Mask.apply_and_of_not_keep (keep_and_eq_zero false m (Or.inl rfl)) (regs .gmacConfig)
  have hport :=
    Mask.apply_and_of_not_keep (keep_and_eq_zero false m (Or.inr rfl)) (regs .gmacConfig)
  rw [h] at hduplex hport
  unfold macMode
  rw [hduplex, hport]
  obtain ⟨full, rate⟩ := m
  cases full <;> cases rate <;> rfl

/-- For all registers: a configuration leaves them configured. -/
theorem configured_macInit (duplexMode speed : BitVec 32) (regs : MacReg → BitVec 32) :
    Configured (modeOf duplexMode speed) (run (macInit duplexMode speed) regs) := by
  intro r
  rw [run_apply, masks_macInit, ← Mask.apply_andThen, configured_andThen, Bool.or_false]

/-- The fast bit is set and never cleared. -/
theorem hasFast_macInit (duplexMode speed : BitVec 32) (regs : MacReg → BitVec 32) :
    hasFast (run (macInit duplexMode speed) regs) =
      (hasFast regs || decide ((modeOf duplexMode speed).rate = .hundred)) := by
  unfold hasFast
  rw [run_apply, masks_macInit]
  generalize modeOf duplexMode speed = m
  by_cases hrate : m.rate = .hundred
  · have hset : (configured true m .gmacConfig).apply (regs .gmacConfig) &&& GmacFESpeed100 =
        GmacFESpeed100 := by
      have hkeep : (configured true m .gmacConfig).keep &&& GmacFESpeed100 = 0#32 := by
        obtain ⟨full, rate⟩ := m
        cases full <;> cases rate <;> rfl
      rw [Mask.apply_and_of_not_keep hkeep]
      obtain ⟨full, rate⟩ := m
      cases full <;> cases rate <;> rfl
    simp only [hrate, decide_true, Bool.or_true]
    rw [hset]
    rfl
  · have hset : (configured false m .gmacConfig).set &&& GmacFESpeed100 = 0#32 := by
      obtain ⟨full, rate⟩ := m
      cases full <;> cases rate <;> rfl
    simp only [hrate, decide_false, Bool.or_false]
    rw [Mask.apply_and_of_keep (keep_fast m), hset, BitVec.or_zero]

/-- Writes to other registers leave the fast bit. -/
theorem hasFast_run {writes : List MacWrite} (h : ∀ x ∈ writes, x.reg ≠ .gmacConfig)
    (regs : MacReg → BitVec 32) : hasFast (run writes regs) = hasFast regs := by
  unfold hasFast
  rw [run_of_not_mem h]

/-! ## The driver is the supervisor -/

/-- The supervisor knows what the driver has in its structure and in the registers. -/
structure Agrees (s : Gmac) (a : Supervisor) : Prop where
  link : s.linkState = linkCode a.link
  fields : modeOf s.duplexMode s.speed = a.fields
  mode : Configured a.mode s.regs
  fast : hasFast s.regs = a.fast

/-- With a link, the MAC is configured for its mode, which is also the one in the fields. -/
structure Supervisor.Sound (a : Supervisor) : Prop where
  mode_of_link : ∀ m, a.link = some m → a.mode = m
  fields_of_link : ∀ m, a.link = some m → a.fields = m
  fast_of_mode : a.mode.rate = .hundred → a.fast = true

/-- Initialising the MAC keeps the device in agreement. -/
theorem Agrees.configure {s : Gmac} {a : Supervisor} (link : s.linkState = linkCode a.link)
    (fields : modeOf s.duplexMode s.speed = a.fields) (fast : hasFast s.regs = a.fast) :
    Agrees s.macInit a.configure where
  link := link
  fields := fields
  mode := by
    have h := configured_macInit s.duplexMode s.speed s.regs
    rw [fields] at h
    exact h
  fast := by
    have h := hasFast_macInit s.duplexMode s.speed s.regs
    rw [fields, fast] at h
    exact h

/-- Writes of the DMA control register that leave its two settings. -/
theorem Agrees.write {s : Gmac} {a : Supervisor} (h : Agrees s a) {writes : List MacWrite}
    (hreg : ∀ x ∈ writes, x.reg = .dmaControl)
    (hmask : (masks writes .dmaControl).andThen (configured false a.mode .dmaControl) =
      (configured false a.mode .dmaControl).andThen (masks writes .dmaControl)) :
    Agrees (s.write writes) a := by
  have hother : ∀ r, r ≠ .dmaControl → run writes s.regs r = s.regs r := by
    intro r hr
    exact run_of_not_mem (fun x hx hxr => hr (hxr.symm.trans (hreg x hx))) s.regs
  constructor
  · exact h.link
  · exact h.fields
  · intro r
    show (configured false a.mode r).apply (run writes s.regs r) = run writes s.regs r
    by_cases hr : r = .dmaControl
    · subst hr
      rw [run_apply, ← Mask.apply_andThen, hmask, Mask.apply_andThen, h.mode]
    · rw [hother r hr, h.mode]
  · rw [← h.fast]
    exact hasFast_run (fun x hx => by rw [hreg x hx]; simp) s.regs

section Steps

variable {σ : Type} (mdioRead : Nat → σ → BitVec 16 × σ) (supportsGmii : Bool)

/-- What the check of the PHY writes into the device. -/
theorem checkPhyInit_eq (s : Gmac) (phy : σ) :
    checkPhyInit mdioRead supportsGmii s phy =
      let m := (readPhy mdioRead supportsGmii phy).1.getD ⟨true, .hundred⟩
      (linkCode (readPhy mdioRead supportsGmii phy).1,
        { s with duplexMode := duplexOf m, speed := speedOf m },
        (readPhy mdioRead supportsGmii phy).2) := by
  unfold checkPhyInit readPhy
  by_cases hok : (miiLinkOk mdioRead phy).1 = true
  · have hduplex : ∀ cmd : EthtoolCmd,
        (if cmd.duplex = DUPLEX_FULL then FULLDUPLEX else HALFDUPLEX) = duplexOf cmd.mode := by
      intro cmd
      simp [duplexOf, EthtoolCmd.mode]
    have hspeed : ∀ cmd : EthtoolCmd, (if cmd.speed = SPEED_1000 then SPEED1000
        else if cmd.speed = SPEED_100 then SPEED100 else SPEED10) = speedOf cmd.mode := by
      intro cmd
      by_cases h1000 : cmd.speed = SPEED_1000
      · simp [speedOf, EthtoolCmd.mode, h1000]
      · by_cases h100 : cmd.speed = SPEED_100
        · simp only [speedOf, EthtoolCmd.mode, h100]
          rfl
        · simp only [speedOf, EthtoolCmd.mode, h1000, h100, if_false]
    simp only [hok, if_true, hduplex, hspeed, Option.getD_some, linkCode]
  · simp only [hok]
    rfl

/-- The timer does what the supervisor does. -/
theorem Agrees.linkTimer {s : Gmac} {a : Supervisor} (h : Agrees s a) (phy : σ) :
    Agrees (cableUnplugFunction mdioRead supportsGmii s phy).1
        (a.look (readLink mdioRead supportsGmii phy).1) ∧
      (cableUnplugFunction mdioRead supportsGmii s phy).2 =
        (readLink mdioRead supportsGmii phy).2 := by
  unfold cableUnplugFunction readLink
  by_cases hok : (miiLinkOk mdioRead phy).1 = true
  · simp only [hok, if_true, checkPhyInit_eq]
    rcases hread : readPhy mdioRead supportsGmii (miiLinkOk mdioRead phy).2 with ⟨found, phy'⟩
    have hsame : s.linkState = linkCode found ↔ a.link = found := by
      rw [h.link]
      exact linkCode_injective.eq_iff
    by_cases hlink : a.link = found
    · have hstate : ¬ s.linkState ≠ linkCode found := not_not.mpr (hsame.mpr hlink)
      simp only [hstate, if_false]
      refine ⟨?_, by cases found <;> rfl⟩
      cases found with
      | none =>
          simp only [Supervisor.look, hlink, if_true]
          exact ⟨h.link.trans (by rw [hlink]), rfl, h.mode, h.fast⟩
      | some m =>
          simp only [Supervisor.look, hlink, if_true]
          exact ⟨h.link.trans (by rw [hlink]), modeOf_duplexOf_speedOf m, h.mode, h.fast⟩
    · have hstate : s.linkState ≠ linkCode found := fun hs => hlink (hsame.mp hs)
      simp only [hstate, if_true, ne_eq, not_false_iff]
      refine ⟨?_, by cases found <;> rfl⟩
      cases found with
      | none =>
          simp only [Supervisor.look, hlink, if_false]
          exact Agrees.configure rfl rfl h.fast
      | some m =>
          simp only [Supervisor.look, hlink, if_false]
          exact Agrees.configure rfl (modeOf_duplexOf_speedOf m) h.fast
  · simp only [hok]
    exact ⟨⟨rfl, rfl, h.mode, h.fast⟩, rfl⟩

/-- A restart does what the supervisor does. -/
theorem Agrees.restart {s : Gmac} {a : Supervisor} (h : Agrees s a) (reset : MacReg → BitVec 32) :
    Agrees ((Gmac.write { s with regs := reset } [dmaControlInit DmaStoreAndForward]).macInit.write
      [enableDmaRx, enableDmaTx]) (a.restart (hasFast reset)) := by
  have hconfigured : Agrees
      (Gmac.write { s with regs := reset } [dmaControlInit DmaStoreAndForward]).macInit
      (a.restart (hasFast reset)) :=
    Agrees.configure (a := { a with fast := hasFast reset }) h.link h.fields rfl
  exact hconfigured.write (by simp [enableDmaRx, enableDmaTx, setBits])
    (by rw [configured_dmaControl]; decide)

/-- The interrupt keeps the device in agreement. -/
theorem Agrees.ethRxIrq {s : Gmac} {a : Supervisor} (h : Agrees s a) (reset : MacReg → BitVec 32)
    (dmaStatusReg data : BitVec 32) (powerDown : Bool) (phy : σ) :
    Agrees (s.ethRxIrq reset dmaStatusReg data powerDown)
      (superviseStep mdioRead supportsGmii (hasFast reset) (a, phy)
        (.ethRxIrq dmaStatusReg data powerDown)).1 := by
  have hstopped : ∀ {s : Gmac} {a : Supervisor}, Agrees s a →
      Agrees (s.write [disableDmaTx, enableDmaTx]) a := fun h =>
    h.write (by simp [disableDmaTx, enableDmaTx, setBits, clearBits])
      (by rw [configured_dmaControl]; decide)
  unfold Gmac.ethRxIrq superviseStep
  by_cases hstatus : dmaStatusReg = 0
  · simp only [hstatus, if_true]
    exact h
  · simp only [hstatus, if_false]
    by_cases herror : getInterruptType data &&& synopGMACDmaError ≠ 0
    · have hrestart : Agrees _ _ := h.restart reset
      simp only [herror, if_true, ne_eq, not_false_iff]
      split_ifs
      · exact hstopped hrestart
      · exact hrestart
    · simp only [herror, if_false]
      split_ifs
      · exact hstopped h
      · exact h

/-- Configuring the fields of the link is sound. -/
theorem Supervisor.Sound.configure {a : Supervisor}
    (hfields : ∀ m, a.link = some m → a.fields = m) : a.configure.Sound where
  mode_of_link := hfields
  fields_of_link := hfields
  fast_of_mode hrate := by
    have hfields : a.fields.rate = .hundred := hrate
    simp [Supervisor.configure, hfields]

/-- A look at the PHY is sound. -/
theorem Supervisor.Sound.look {a : Supervisor} (h : a.Sound) (found : Reading) :
    (a.look found).Sound := by
  cases found with
  | noLink => exact ⟨fun m hm => (nomatch hm), fun m hm => (nomatch hm), h.fast_of_mode⟩
  | lost =>
      by_cases hlink : a.link = none
      · simp only [Supervisor.look, hlink, if_true]
        exact ⟨fun m hm => (nomatch hm), fun m hm => (nomatch hm), h.fast_of_mode⟩
      · simp only [Supervisor.look, hlink, if_false]
        exact Supervisor.Sound.configure fun m hm => nomatch hm
  | link m =>
      by_cases hlink : a.link = some m
      · simp only [Supervisor.look, hlink, if_true]
        exact ⟨fun m' hm' => h.mode_of_link m' (hlink.trans hm'),
          fun m' hm' => Option.some_inj.mp hm', h.fast_of_mode⟩
      · simp only [Supervisor.look, hlink, if_false]
        exact Supervisor.Sound.configure fun m' hm' => Option.some_inj.mp hm'

/-- Every event keeps the supervisor sound. -/
theorem Supervisor.Sound.step {a : Supervisor} (h : a.Sound) (fastReset : Bool) (phy : σ)
    (e : LinkEvent) : (superviseStep mdioRead supportsGmii fastReset (a, phy) e).1.Sound := by
  cases e with
  | linkTimer => exact h.look _
  | ethRxIrq dmaStatusReg data powerDown =>
      simp only [superviseStep]
      split_ifs
      · exact h
      · exact Supervisor.Sound.configure h.fields_of_link
      · exact h

/-- One event. -/
theorem Agrees.step {s : Gmac} {a : Supervisor} (h : Agrees s a) (reset : MacReg → BitVec 32)
    (phy : σ) (e : LinkEvent) :
    Agrees (linkStep mdioRead supportsGmii reset (s, phy) e).1
        (superviseStep mdioRead supportsGmii (hasFast reset) (a, phy) e).1 ∧
      (linkStep mdioRead supportsGmii reset (s, phy) e).2 =
        (superviseStep mdioRead supportsGmii (hasFast reset) (a, phy) e).2 := by
  cases e with
  | linkTimer => exact h.linkTimer mdioRead supportsGmii phy
  | ethRxIrq dmaStatusReg data powerDown =>
      refine ⟨h.ethRxIrq mdioRead supportsGmii reset dmaStatusReg data powerDown phy, ?_⟩
      simp only [linkStep, superviseStep]
      split_ifs <;> rfl

/-- The initialised device agrees with the initial supervisor. -/
theorem agrees_init (reset : MacReg → BitVec 32) (phy : σ) :
    Agrees (Gmac.ethInit mdioRead supportsGmii reset phy).1
        (Supervisor.init mdioRead supportsGmii (hasFast reset) phy).1 ∧
      (Gmac.ethInit mdioRead supportsGmii reset phy).2 =
        (Supervisor.init mdioRead supportsGmii (hasFast reset) phy).2 := by
  unfold Gmac.ethInit Supervisor.init
  simp only [checkPhyInit_eq]
  refine ⟨Agrees.configure rfl (modeOf_duplexOf_speedOf _) ?_, trivial⟩
  simp only [Gmac.write, Gmac.macInit, Supervisor.configure]
  rw [hasFast_run (by simp [pauseControl, enableDmaRx, enableDmaTx, setBits]), hasFast_macInit,
    hasFast_run (by simp [dmaControlInit, writeReg]), modeOf_duplexOf_speedOf]

/-- The initial supervisor is sound. -/
theorem sound_init (fastReset : Bool) (phy : σ) :
    (Supervisor.init mdioRead supportsGmii fastReset phy).1.Sound :=
  Supervisor.Sound.configure fun _ hm => nomatch hm

/-! ## Runs -/

/-- The driver behind `eth_init` and a history of events. -/
def linkRun (reset : MacReg → BitVec 32) (phy : σ) (events : List LinkEvent) : Gmac × σ :=
  events.foldl (linkStep mdioRead supportsGmii reset)
    (Gmac.ethInit mdioRead supportsGmii reset phy)

/-- The supervisor behind the same events. -/
def supervised (fastReset : Bool) (phy : σ) (events : List LinkEvent) : Supervisor × σ :=
  events.foldl (superviseStep mdioRead supportsGmii fastReset)
    (Supervisor.init mdioRead supportsGmii fastReset phy)

/-- For all events: the driver and the supervisor stay together. -/
theorem Agrees.run {s : Gmac × σ} {a : Supervisor × σ} (h : Agrees s.1 a.1) (hsound : a.1.Sound)
    (hphy : s.2 = a.2) (reset : MacReg → BitVec 32) (events : List LinkEvent) :
    Agrees (events.foldl (linkStep mdioRead supportsGmii reset) s).1
        (events.foldl (superviseStep mdioRead supportsGmii (hasFast reset)) a).1 ∧
      (events.foldl (superviseStep mdioRead supportsGmii (hasFast reset)) a).1.Sound := by
  induction events generalizing s a with
  | nil => exact ⟨h, hsound⟩
  | cons e events ih =>
      obtain ⟨s, phy⟩ := s
      obtain ⟨a, phy'⟩ := a
      have hphy : phy = phy' := hphy
      subst hphy
      have hstep := h.step mdioRead supportsGmii reset phy e
      exact ih hstep.1 (hsound.step mdioRead supportsGmii (hasFast reset) phy e) hstep.2

/-- For every PHY, all register values behind a reset and every history: while a mode is
reported for the link, all registers are as a configuration for it leaves them, and the
MAC works in it, unless it is one of 10 Mb/s and the bit for 100 Mb/s is left from a
configuration, or from the reset itself. -/
theorem macMode_run (reset : MacReg → BitVec 32) (phy : σ) (events : List LinkEvent) (m : Mode)
    (hlink : (linkRun mdioRead supportsGmii reset phy events).1.linkState = linkCode (some m)) :
    Configured m (linkRun mdioRead supportsGmii reset phy events).1.regs ∧
      (macMode (linkRun mdioRead supportsGmii reset phy events).1.regs = m ↔
        ¬ (m.rate = .ten ∧
          (supervised mdioRead supportsGmii (hasFast reset) phy events).1.fast = true)) := by
  have hinit := agrees_init mdioRead supportsGmii reset phy
  obtain ⟨hagrees, hsound⟩ := hinit.1.run mdioRead supportsGmii
    (sound_init mdioRead supportsGmii (hasFast reset) phy) hinit.2 reset events
  change Agrees (linkRun mdioRead supportsGmii reset phy events).1
    (supervised mdioRead supportsGmii (hasFast reset) phy events).1 at hagrees
  change Supervisor.Sound (supervised mdioRead supportsGmii (hasFast reset) phy events).1 at hsound
  generalize (supervised mdioRead supportsGmii (hasFast reset) phy events).1 = a at *
  generalize (linkRun mdioRead supportsGmii reset phy events).1 = s at *
  have hreported : a.link = some m := linkCode_injective (hagrees.link.symm.trans hlink)
  have hmode : a.mode = m := hsound.mode_of_link m hreported
  have hfast : m.rate = .hundred → a.fast = true := fun hrate =>
    hsound.fast_of_mode (by rw [hmode]; exact hrate)
  refine ⟨hmode ▸ hagrees.mode, ?_⟩
  rw [hagrees.mode.macMode_eq, hagrees.fast, hmode]
  obtain ⟨full, rate⟩ := m
  cases rate with
  | ten => cases a.fast <;> simp
  | hundred =>
      rw [hfast rfl]
      simp
  | thousand => simp

end Steps

/-- A PHY with a link of 10 Mb/s from its fifth read on. -/
def lateLink (reg reads : Nat) : BitVec 16 × Nat :=
  (if reg = MII_BMSR then (if reads < 4 then 0#16 else BMSR_LSTATUS)
    else if reg = MII_BMCR then BMCR_ANENABLE
    else LPA_10FULL, reads + 1)

/-- The cable is plugged in behind `eth_init`: the MAC works with 100 Mb/s on the link of
10 Mb/s. -/
theorem macMode_run_late_link :
    (linkRun lateLink false (fun _ => 0#32) 0 [.linkTimer]).1.linkState =
        linkCode (some ⟨true, .ten⟩) ∧
      Configured ⟨true, .ten⟩ (linkRun lateLink false (fun _ => 0#32) 0 [.linkTimer]).1.regs ∧
      macMode (linkRun lateLink false (fun _ => 0#32) 0 [.linkTimer]).1.regs ≠ ⟨true, .ten⟩ := by
  have hlink : (linkRun lateLink false (fun _ => 0#32) 0 [.linkTimer]).1.linkState =
      linkCode (some ⟨true, .ten⟩) := by decide
  have hrun := macMode_run lateLink false (fun _ => 0#32) 0 [.linkTimer] ⟨true, .ten⟩ hlink
  exact ⟨hlink, hrun.1, fun hmode => hrun.2.mp hmode ⟨rfl, by decide⟩⟩

/-! ## The DMA control register -/

/-- A fatal bus error that is handled. -/
def LinkEvent.isFatal : LinkEvent → Bool
  | .linkTimer => false
  | .ethRxIrq dmaStatusReg data _ =>
      decide (dmaStatusReg ≠ 0 ∧ getInterruptType data &&& synopGMACDmaError ≠ 0)

/-- What stands in the register: a restart repeats neither `synopGMAC_pause_control` nor the
other settings that `eth_init` begins with. -/
def dmaSettings (restarted : Bool) : BitVec 32 :=
  DmaStoreAndForward ||| DmaFwdErrorFrames ||| DmaRxStart ||| DmaTxStart |||
    if restarted then 0#32
    else DmaTxSecondFrame ||| DmaRxThreshCtrl128 |||
      (DmaRxFlowCtrlAct4K ||| DmaRxFlowCtrlDeact5K ||| DmaEnHwFlowCtrl)

/-- Writes that set bits of the DMA control register. -/
theorem dmaControl_write (s : Gmac) {writes : List MacWrite} (bits : BitVec 32)
    (h : masks writes .dmaControl = Mask.setting bits) :
    (s.write writes).regs .dmaControl = s.regs .dmaControl ||| bits := by
  rw [Gmac.regs_write, run_apply, h, Mask.apply_setting]

/-- Initialising the MAC sets bits of the DMA control register and clears none. -/
theorem dmaControl_macInit (s : Gmac) :
    s.macInit.regs .dmaControl =
      s.regs .dmaControl ||| (DmaStoreAndForward ||| DmaFwdErrorFrames) :=
  dmaControl_write s _ (by rw [masks_macInit, configured_dmaControl])

/-- The register is stored whole. -/
theorem dmaControl_init (s : Gmac) (value : BitVec 32) :
    (s.write [dmaControlInit value]).regs .dmaControl = value := by
  rw [Gmac.regs_write, run_apply]
  change ((Mask.storing value).andThen Mask.idle).apply _ = value
  rw [Mask.apply_andThen, Mask.apply_idle, Mask.apply_storing]

/-- What stands in the register stays as it is under every configuration. -/
theorem dmaSettings_macInit (restarted : Bool) :
    dmaSettings restarted ||| (DmaStoreAndForward ||| DmaFwdErrorFrames) =
      dmaSettings restarted := by
  cases restarted <;> rfl

section DmaControl

variable {σ : Type} (mdioRead : Nat → σ → BitVec 16 × σ) (supportsGmii : Bool)

/-- The DMA settings after the initialisation. -/
theorem dmaControl_ethInit (reset : MacReg → BitVec 32) (phy : σ) :
    (Gmac.ethInit mdioRead supportsGmii reset phy).1.regs .dmaControl = dmaSettings false := by
  have hpause : masks (pauseControl ++ [enableDmaRx, enableDmaTx]) .dmaControl =
      Mask.setting (DmaRxFlowCtrlAct4K ||| DmaRxFlowCtrlDeact5K ||| DmaEnHwFlowCtrl |||
        (DmaRxStart ||| DmaTxStart)) := by
    decide
  unfold Gmac.ethInit
  simp only [checkPhyInit_eq]
  rw [dmaControl_macInit, dmaControl_write _ _ hpause, dmaControl_macInit, dmaControl_init]
  rfl

/-- The link timer keeps the DMA settings. -/
theorem dmaControl_linkTimer (s : Gmac) (phy : σ) {restarted : Bool}
    (h : s.regs .dmaControl = dmaSettings restarted) :
    (cableUnplugFunction mdioRead supportsGmii s phy).1.regs .dmaControl =
      dmaSettings restarted := by
  unfold cableUnplugFunction
  simp only [checkPhyInit_eq]
  split_ifs
  · rw [dmaControl_macInit, h, dmaSettings_macInit]
  · exact h
  · exact h

/-- The interrupt changes the DMA settings by its restart alone. -/
theorem dmaControl_ethRxIrq (reset : MacReg → BitVec 32) (s : Gmac) (dmaStatusReg data : BitVec 32)
    (powerDown : Bool) {restarted : Bool} (h : s.regs .dmaControl = dmaSettings restarted) :
    (s.ethRxIrq reset dmaStatusReg data powerDown).regs .dmaControl =
      dmaSettings (restarted || (LinkEvent.ethRxIrq dmaStatusReg data powerDown).isFatal) := by
  have hstopped : ∀ {s : Gmac} {restarted : Bool}, s.regs .dmaControl = dmaSettings restarted →
      (s.write [disableDmaTx, enableDmaTx]).regs .dmaControl = dmaSettings restarted := by
    intro s restarted h
    rw [dmaControl_write s DmaTxStart (by decide), h]
    cases restarted <;> rfl
  have hrestart : ∀ s : Gmac,
      ((Gmac.write s [dmaControlInit DmaStoreAndForward]).macInit.write
        [enableDmaRx, enableDmaTx]).regs .dmaControl = dmaSettings true := by
    intro s
    rw [dmaControl_write _ (DmaRxStart ||| DmaTxStart) (by decide), dmaControl_macInit,
      dmaControl_init]
    rfl
  unfold Gmac.ethRxIrq
  by_cases hstatus : dmaStatusReg = 0
  · have hfatal : (LinkEvent.ethRxIrq dmaStatusReg data powerDown).isFatal = false :=
      decide_eq_false fun hboth => hboth.1 hstatus
    rw [hfatal, Bool.or_false, if_pos hstatus]
    exact h
  · rw [if_neg hstatus]
    by_cases herror : getInterruptType data &&& synopGMACDmaError = 0
    · have hfatal : (LinkEvent.ethRxIrq dmaStatusReg data powerDown).isFatal = false :=
        decide_eq_false fun hboth => hboth.2 herror
      rw [hfatal, Bool.or_false]
      simp only [herror, ne_eq, not_true_eq_false, if_false]
      split_ifs
      · exact hstopped h
      · exact h
    · have hfatal : (LinkEvent.ethRxIrq dmaStatusReg data powerDown).isFatal = true :=
        decide_eq_true ⟨hstatus, herror⟩
      rw [hfatal, Bool.or_true]
      simp only [herror, ne_eq, not_false_eq_true, if_true]
      split_ifs
      · exact hstopped (hrestart _)
      · exact hrestart _

/-- One event. -/
theorem dmaControl_step (reset : MacReg → BitVec 32) (s : Gmac × σ) (e : LinkEvent)
    {restarted : Bool} (h : s.1.regs .dmaControl = dmaSettings restarted) :
    (linkStep mdioRead supportsGmii reset s e).1.regs .dmaControl =
      dmaSettings (restarted || e.isFatal) := by
  cases e with
  | linkTimer =>
      rw [LinkEvent.isFatal, Bool.or_false]
      exact dmaControl_linkTimer mdioRead supportsGmii s.1 s.2 h
  | ethRxIrq dmaStatusReg data powerDown =>
      exact dmaControl_ethRxIrq reset s.1 dmaStatusReg data powerDown h

/-- A run changes the DMA settings by its restarts alone. -/
theorem dmaControl_foldl (reset : MacReg → BitVec 32) (s : Gmac × σ) (events : List LinkEvent)
    {restarted : Bool} (h : s.1.regs .dmaControl = dmaSettings restarted) :
    (events.foldl (linkStep mdioRead supportsGmii reset) s).1.regs .dmaControl =
      dmaSettings (restarted || events.any LinkEvent.isFatal) := by
  induction events generalizing s restarted with
  | nil => simpa using h
  | cons e events ih =>
      have hstep := dmaControl_step mdioRead supportsGmii reset s e h
      rw [List.foldl_cons, ih _ hstep, List.any_cons, Bool.or_assoc]

/-- For every PHY, all register values behind a reset and every history: the register holds
the settings of `eth_init` until a fatal bus error is handled, and without the flow control
and the other first settings from then on. -/
theorem dmaControl_run (reset : MacReg → BitVec 32) (phy : σ) (events : List LinkEvent) :
    (linkRun mdioRead supportsGmii reset phy events).1.regs .dmaControl =
      dmaSettings (events.any LinkEvent.isFatal) := by
  have hinit := dmaControl_ethInit mdioRead supportsGmii reset phy
  have h := dmaControl_foldl mdioRead supportsGmii reset _ events hinit
  rw [Bool.false_or] at h
  exact h

end DmaControl

end Net
end Ls2kMorse
