import Ls2kMorse.Net.MacInit

/-!
# The link as the PHY reports it

The functions of `mii.c` read the registers of the PHY through `mdio_read`: whether there
is a link, and which speed and duplex mode it has.  The PHY is any device that answers
reads; its answers may change from one read to the next.

Main results:

- Theorem `miiEthtoolGset_iff`: when the mode that is reported is the best one that both
  sides of the link offer.
-/

namespace Ls2kMorse
namespace Net

/-! ## Registers of the PHY -/

/-- The basic control register. -/
def MII_BMCR : Nat := 0x00

/-- The basic status register. -/
def MII_BMSR : Nat := 0x01

/-- The modes that this side advertises. -/
def MII_ADVERTISE : Nat := 0x04

/-- The modes that the partner advertises. -/
def MII_LPA : Nat := 0x05

/-- The gigabit modes that this side advertises. -/
def MII_CTRL1000 : Nat := 0x09

/-- The gigabit modes that the partner advertises. -/
def MII_STAT1000 : Nat := 0x0a

/-- The forced speed is 1000 Mbit/s. -/
def BMCR_SPEED1000 : BitVec 16 := 0x0040#16

/-- The forced mode is full duplex. -/
def BMCR_FULLDPLX : BitVec 16 := 0x0100#16

/-- The mode is negotiated. -/
def BMCR_ANENABLE : BitVec 16 := 0x1000#16

/-- The forced speed is 100 Mbit/s. -/
def BMCR_SPEED100 : BitVec 16 := 0x2000#16

/-- The link is up. -/
def BMSR_LSTATUS : BitVec 16 := 0x0004#16

/-- 10 Mbit/s in half duplex. -/
def LPA_10HALF : BitVec 16 := 0x0020#16

/-- 10 Mbit/s in full duplex. -/
def LPA_10FULL : BitVec 16 := 0x0040#16

/-- 100 Mbit/s in half duplex. -/
def LPA_100HALF : BitVec 16 := 0x0080#16

/-- 100 Mbit/s in full duplex. -/
def LPA_100FULL : BitVec 16 := 0x0100#16

/-- 100BASE-T4. -/
def LPA_100BASE4 : BitVec 16 := 0x0200#16

/-- The partner offers 1000 Mbit/s in full duplex. -/
def LPA_1000FULL : BitVec 16 := 0x0800#16

/-- This side offers 1000 Mbit/s in full duplex. -/
def ADVERTISE_1000FULL : BitVec 16 := 0x0200#16

/-- This side offers 1000 Mbit/s in half duplex. -/
def ADVERTISE_1000HALF : BitVec 16 := 0x0100#16

/-- The speed of `ethtool_cmd` for 10 Mbit/s. -/
def SPEED_10 : Nat := 10

/-- The speed of `ethtool_cmd` for 100 Mbit/s. -/
def SPEED_100 : Nat := 100

/-- The speed of `ethtool_cmd` for 1000 Mbit/s. -/
def SPEED_1000 : Nat := 1000

/-- The duplex of `ethtool_cmd` for half duplex. -/
def DUPLEX_HALF : Nat := 0x00

/-- The duplex of `ethtool_cmd` for full duplex. -/
def DUPLEX_FULL : Nat := 0x01

/-- The members of `struct ethtool_cmd` that the driver uses. -/
structure EthtoolCmd where
  speed : Nat
  duplex : Nat
deriving Repr, DecidableEq

/-! ## The functions as the source computes them -/

/-- `mii_nway_result`: the first common mode in the order of the tests, and 10 Mbit/s
in half duplex without a test. -/
def miiNwayResult (negotiated : BitVec 16) : BitVec 16 :=
  if negotiated &&& LPA_100FULL ≠ 0#16 then LPA_100FULL
  else if negotiated &&& LPA_100BASE4 ≠ 0#16 then LPA_100BASE4
  else if negotiated &&& LPA_100HALF ≠ 0#16 then LPA_100HALF
  else if negotiated &&& LPA_10FULL ≠ 0#16 then LPA_10FULL
  else LPA_10HALF

/-- The last part of `mii_ethtool_gset`, from the values of the registers. -/
def negotiated (advert bmcr lpa bmcr2 lpa2 : BitVec 16) : EthtoolCmd :=
  if bmcr &&& BMCR_ANENABLE ≠ 0#16 then
    let nego := miiNwayResult (advert &&& lpa)
    { speed :=
        if (bmcr2 &&& (ADVERTISE_1000HALF ||| ADVERTISE_1000FULL)) &&& (lpa2 >>> 2) ≠ 0#16 then
          SPEED_1000
        else if nego = LPA_100FULL ∨ nego = LPA_100HALF then SPEED_100
        else SPEED_10
      duplex :=
        if lpa2 &&& LPA_1000FULL ≠ 0#16 ∨ nego = LPA_100FULL ∨ nego = LPA_10FULL then DUPLEX_FULL
        else DUPLEX_HALF }
  else
    { speed :=
        if bmcr &&& BMCR_SPEED1000 ≠ 0#16 ∧ bmcr &&& BMCR_SPEED100 = 0#16 then SPEED_1000
        else if bmcr &&& BMCR_SPEED100 ≠ 0#16 then SPEED_100
        else SPEED_10
      duplex := if bmcr &&& BMCR_FULLDPLX ≠ 0#16 then DUPLEX_FULL else DUPLEX_HALF }

section Phy

variable {σ : Type} (mdioRead : Nat → σ → BitVec 16 × σ)

/-- `mii_link_ok`: reads the status register twice, since the bit for a lost link is
latched. -/
def miiLinkOk (phy : σ) : Bool × σ :=
  let (_, phy) := mdioRead MII_BMSR phy
  let (bmsr, phy) := mdioRead MII_BMSR phy
  (bmsr &&& BMSR_LSTATUS ≠ 0#16, phy)

/-- A read that is left out without support for 1000 Mb/s. -/
def readGmii (supportsGmii : Bool) (reg : Nat) (phy : σ) : BitVec 16 × σ :=
  if supportsGmii then mdioRead reg phy else (0#16, phy)

/-- `mii_ethtool_gset`: reads the negotiated mode, or the forced one, into
`ethtool_cmd`. -/
def miiEthtoolGset (supportsGmii : Bool) (phy : σ) : EthtoolCmd × σ :=
  let (advert, phy) := mdioRead MII_ADVERTISE phy
  let (_, phy) := readGmii mdioRead supportsGmii MII_CTRL1000 phy
  let (bmcr, phy) := mdioRead MII_BMCR phy
  let (lpa, phy) := mdioRead MII_LPA phy
  let (bmcr2, phy) := readGmii mdioRead supportsGmii MII_CTRL1000 phy
  let (lpa2, phy) := readGmii mdioRead supportsGmii MII_STAT1000 phy
  (negotiated advert bmcr lpa bmcr2 lpa2, phy)

end Phy

/-! ## What is negotiated -/

/-- The mode that the driver takes a result for. -/
def EthtoolCmd.mode (cmd : EthtoolCmd) : Mode where
  full := decide (cmd.duplex = DUPLEX_FULL)
  rate :=
    if cmd.speed = SPEED_1000 then .thousand
    else if cmd.speed = SPEED_100 then .hundred
    else .ten

/-- The best mode up to 100 Mb/s among the offers of both sides, if there is one. -/
def bestBelow (offers : BitVec 16) : Option Mode :=
  if offers &&& LPA_100FULL ≠ 0#16 then some ⟨true, .hundred⟩
  else if offers &&& LPA_100BASE4 ≠ 0#16 then some ⟨false, .hundred⟩
  else if offers &&& LPA_100HALF ≠ 0#16 then some ⟨false, .hundred⟩
  else if offers &&& LPA_10FULL ≠ 0#16 then some ⟨true, .ten⟩
  else if offers &&& LPA_10HALF ≠ 0#16 then some ⟨false, .ten⟩
  else none

/-- The best mode that both sides of a link offer, if there is one. -/
def bestMode (advert lpa bmcr2 lpa2 : BitVec 16) : Option Mode :=
  if bmcr2 &&& ADVERTISE_1000FULL &&& (lpa2 >>> 2) ≠ 0#16 then some ⟨true, .thousand⟩
  else if bmcr2 &&& ADVERTISE_1000HALF &&& (lpa2 >>> 2) ≠ 0#16 then some ⟨false, .thousand⟩
  else bestBelow (advert &&& lpa)

/-- Where the result of a negotiation is misread: there is no common mode; the best one has
half duplex, but the partner has full duplex at 1000 Mb/s, or the best one up to 100 Mb/s
has it; or the best one is 100BASE-T4, which counts as 10 Mb/s. -/
structure Misread (advert lpa bmcr2 lpa2 : BitVec 16) : Prop where
  cause : bestMode advert lpa bmcr2 lpa2 = none ∨
    (∃ m, bestMode advert lpa bmcr2 lpa2 = some m ∧ m.full = false ∧
      (lpa2 &&& LPA_1000FULL ≠ 0#16 ∨
        ∃ below, bestBelow (advert &&& lpa) = some below ∧ below.full = true)) ∨
    (∃ m, bestMode advert lpa bmcr2 lpa2 = some m ∧ m.rate ≠ .thousand ∧
      advert &&& lpa &&& LPA_100FULL = 0#16 ∧ advert &&& lpa &&& LPA_100BASE4 ≠ 0#16)

theorem and_or_ne_zero {w : Nat} (a b c d : BitVec w) :
    (a &&& (b ||| c)) &&& d ≠ 0#w ↔ a &&& b &&& d ≠ 0#w ∨ a &&& c &&& d ≠ 0#w := by
  rw [BitVec.and_or_distrib_left, BitVec.and_or_distrib_right]
  constructor
  · intro h
    by_contra hnone
    push Not at hnone
    rw [hnone.1, hnone.2] at h
    simp at h
  · rintro (h | h) hzero
    · rw [BitVec.or_eq_zero_iff] at hzero
      exact h hzero.1
    · rw [BitVec.or_eq_zero_iff] at hzero
      exact h hzero.2

/-- The offer that `mii_nway_result` takes is the first one of its list. -/
theorem miiNwayResult_cases (offers : BitVec 16) :
    (offers &&& LPA_100FULL ≠ 0#16 ∧ miiNwayResult offers = LPA_100FULL) ∨
    (offers &&& LPA_100FULL = 0#16 ∧ offers &&& LPA_100BASE4 ≠ 0#16 ∧
      miiNwayResult offers = LPA_100BASE4) ∨
    (offers &&& LPA_100FULL = 0#16 ∧ offers &&& LPA_100BASE4 = 0#16 ∧
      offers &&& LPA_100HALF ≠ 0#16 ∧ miiNwayResult offers = LPA_100HALF) ∨
    (offers &&& LPA_100FULL = 0#16 ∧ offers &&& LPA_100BASE4 = 0#16 ∧
      offers &&& LPA_100HALF = 0#16 ∧ offers &&& LPA_10FULL ≠ 0#16 ∧
      miiNwayResult offers = LPA_10FULL) ∨
    (offers &&& LPA_100FULL = 0#16 ∧ offers &&& LPA_100BASE4 = 0#16 ∧
      offers &&& LPA_100HALF = 0#16 ∧ offers &&& LPA_10FULL = 0#16 ∧
      miiNwayResult offers = LPA_10HALF) := by
  unfold miiNwayResult
  by_cases hfull : offers &&& LPA_100FULL = 0#16
  · by_cases hbase : offers &&& LPA_100BASE4 = 0#16
    · by_cases hhalf : offers &&& LPA_100HALF = 0#16
      · by_cases hten : offers &&& LPA_10FULL = 0#16
        · simp [hfull, hbase, hhalf, hten]
        · simp [hfull, hbase, hhalf, hten]
      · simp [hfull, hbase, hhalf]
    · simp [hfull, hbase]
  · simp [hfull]

/-- A partner that offers 1000 Mb/s with full duplex has the bit that the test of the duplex
mode looks at. -/
theorem lpa_1000full_of_offer (bmcr2 lpa2 : BitVec 16)
    (h : bmcr2 &&& ADVERTISE_1000FULL &&& (lpa2 >>> 2) ≠ 0#16) : lpa2 &&& LPA_1000FULL ≠ 0#16 := by
  intro hzero
  apply h
  have hshift : ADVERTISE_1000FULL &&& (lpa2 >>> 2) = (lpa2 &&& LPA_1000FULL) >>> 2 := by
    rw [BitVec.ushiftRight_and_distrib, BitVec.and_comm]
    rfl
  rw [BitVec.and_assoc, hshift, hzero]
  simp

/-- For all register values with negotiation enabled: the reported mode is the best common
one if and only if the result is not misread. -/
theorem negotiated_iff (advert bmcr lpa bmcr2 lpa2 : BitVec 16)
    (hauto : bmcr &&& BMCR_ANENABLE ≠ 0#16) :
    bestMode advert lpa bmcr2 lpa2 = some (negotiated advert bmcr lpa bmcr2 lpa2).mode ↔
      ¬ Misread advert lpa bmcr2 lpa2 := by
  have hgigabit := and_or_ne_zero bmcr2 ADVERTISE_1000HALF ADVERTISE_1000FULL (lpa2 >>> 2)
  have hlpa := lpa_1000full_of_offer bmcr2 lpa2
  have hcause : Misread advert lpa bmcr2 lpa2 ↔ _ := ⟨Misread.cause, Misread.mk⟩
  rw [hcause]
  unfold negotiated bestMode bestBelow EthtoolCmd.mode
  rw [if_pos hauto]
  simp only [hgigabit]
  by_cases hfull : bmcr2 &&& ADVERTISE_1000FULL &&& (lpa2 >>> 2) ≠ 0#16
  · simp +decide [hfull, hlpa hfull]
  · rcases miiNwayResult_cases (advert &&& lpa) with
      ⟨h100, hnego⟩ | ⟨h100, hbase, hnego⟩ | ⟨h100, hbase, hhalf, hnego⟩ |
        ⟨h100, hbase, hhalf, h10, hnego⟩ | ⟨h100, hbase, hhalf, h10, hnego⟩
    · by_cases hgiga : bmcr2 &&& ADVERTISE_1000HALF &&& (lpa2 >>> 2) ≠ 0#16
      · simp +decide [hfull, hgiga, h100, hnego]
      · simp +decide [hfull, hgiga, h100, hnego]
    · by_cases hgiga : bmcr2 &&& ADVERTISE_1000HALF &&& (lpa2 >>> 2) ≠ 0#16
      · simp +decide [hfull, hgiga, h100, hbase, hnego]
      · simp +decide [hfull, hgiga, h100, hbase, hnego]
    · by_cases hgiga : bmcr2 &&& ADVERTISE_1000HALF &&& (lpa2 >>> 2) ≠ 0#16
      · simp +decide [hfull, hgiga, h100, hbase, hhalf, hnego]
      · simp +decide [hfull, hgiga, h100, hbase, hhalf, hnego]
    · by_cases hgiga : bmcr2 &&& ADVERTISE_1000HALF &&& (lpa2 >>> 2) ≠ 0#16
      · simp +decide [hfull, hgiga, h100, hbase, hhalf, h10, hnego]
      · simp +decide [hfull, hgiga, h100, hbase, hhalf, h10, hnego]
    · by_cases hgiga : bmcr2 &&& ADVERTISE_1000HALF &&& (lpa2 >>> 2) ≠ 0#16
      · by_cases hten : advert &&& lpa &&& LPA_10HALF ≠ 0#16
        · simp +decide [hfull, hgiga, h100, hbase, hhalf, h10, hnego, hten]
        · simp +decide [hfull, hgiga, h100, hbase, hhalf, h10, hnego, hten]
      · by_cases hten : advert &&& lpa &&& LPA_10HALF ≠ 0#16
        · simp +decide [hfull, hgiga, h100, hbase, hhalf, h10, hnego, hten]
        · simp +decide [hfull, hgiga, h100, hbase, hhalf, h10, hnego, hten]

/-- The registers for 1000 Mb/s, zero where they are not read. -/
def gmiiRegister (supportsGmii : Bool) (value : BitVec 16) : BitVec 16 :=
  if supportsGmii then value else 0#16

/-- For every PHY with negotiation enabled whose registers do not change meanwhile:
`mii_ethtool_gset` reports the best common mode if and only if the result is not misread. -/
theorem miiEthtoolGset_iff {σ : Type} (mdioRead : Nat → σ → BitVec 16 × σ) (supportsGmii : Bool)
    (phy : σ) {regs : Nat → BitVec 16} (hregs : ∀ reg, mdioRead reg phy = (regs reg, phy))
    (hauto : regs MII_BMCR &&& BMCR_ANENABLE ≠ 0#16) :
    let bmcr2 := gmiiRegister supportsGmii (regs MII_CTRL1000)
    let lpa2 := gmiiRegister supportsGmii (regs MII_STAT1000)
    bestMode (regs MII_ADVERTISE) (regs MII_LPA) bmcr2 lpa2 =
        some (miiEthtoolGset mdioRead supportsGmii phy).1.mode ↔
      ¬ Misread (regs MII_ADVERTISE) (regs MII_LPA) bmcr2 lpa2 := by
  intro bmcr2 lpa2
  have hgmii : ∀ reg, readGmii mdioRead supportsGmii reg phy =
      (gmiiRegister supportsGmii (regs reg), phy) := by
    intro reg
    cases supportsGmii with
    | true => exact hregs reg
    | false => rfl
  have hgset : (miiEthtoolGset mdioRead supportsGmii phy).1 =
      negotiated (regs MII_ADVERTISE) (regs MII_BMCR) (regs MII_LPA) bmcr2 lpa2 := by
    unfold miiEthtoolGset
    simp only [hregs, hgmii]
    rfl
  rw [hgset]
  exact negotiated_iff _ _ _ _ _ hauto

/-- A PHY that offers 10 and 100 Mb/s with both duplex modes, and its partner 100BASE-T4
besides. -/
def fastPhy (lpa : BitVec 16) (reg : Nat) : BitVec 16 :=
  if reg = MII_BMCR then BMCR_ANENABLE
  else if reg = MII_ADVERTISE then
    LPA_10HALF ||| LPA_10FULL ||| LPA_100HALF ||| LPA_100FULL ||| LPA_100BASE4
  else if reg = MII_LPA then lpa
  else 0#16

/-- With a partner for 100 Mb/s and half duplex the report is right, with one for
100BASE-T4 it is not. -/
theorem miiEthtoolGset_fastPhy :
    (miiEthtoolGset (fun reg (_ : Unit) => (fastPhy (LPA_10FULL ||| LPA_100HALF) reg, ())) true
        ()).1.mode = ⟨false, .hundred⟩ ∧
      bestMode (fastPhy LPA_100BASE4 MII_ADVERTISE) LPA_100BASE4 0#16 0#16 ≠
        some (miiEthtoolGset (fun reg (_ : Unit) => (fastPhy LPA_100BASE4 reg, ())) true
          ()).1.mode := by
  have hright := miiEthtoolGset_iff
    (fun reg (_ : Unit) => (fastPhy (LPA_10FULL ||| LPA_100HALF) reg, ())) true ()
    (fun _ => rfl) (by decide)
  have hwrong := miiEthtoolGset_iff (fun reg (_ : Unit) => (fastPhy LPA_100BASE4 reg, ())) true ()
    (fun _ => rfl) (by decide)
  constructor
  · have hbest := hright.mpr fun h => by
      rcases h.cause with hnone | ⟨m, -, -, hbits | ⟨below, hbelow, hduplex⟩⟩ | ⟨m, -, -, -, hbase⟩
      · exact absurd hnone (by decide)
      · exact hbits (by decide)
      · have hsome : bestBelow (fastPhy (LPA_10FULL ||| LPA_100HALF) MII_ADVERTISE &&&
            fastPhy (LPA_10FULL ||| LPA_100HALF) MII_LPA) = some ⟨false, .hundred⟩ := by decide
        rw [hsome, Option.some.injEq] at hbelow
        rw [← hbelow] at hduplex
        exact Bool.noConfusion hduplex
      · exact hbase (by decide)
    exact Option.some.inj (hbest.symm.trans (by decide))
  · intro hsame
    exact hwrong.mp hsame ⟨Or.inr (Or.inr ⟨⟨false, .hundred⟩, by decide, by decide, by decide,
      by decide⟩)⟩

end Net
end Ls2kMorse
