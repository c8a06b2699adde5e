import Ls2kMorse.Lib.RegisterMask

/-!
# The configuration of the MAC

`synopGMAC_mac_init` brings four registers of the network controller into the state for a
duplex mode and a speed, by one small function for each setting.  For the speed of
10 Mb/s it sets `GmacFESpeed10`, which is zero: the bit for 100 Mb/s is never cleared.

Main results:

- Theorem `masks_macInit`: what the whole function does to each register.
- Theorem `configured_andThen`: which of its effects another call takes back.
-/

namespace Ls2kMorse
namespace Net

open Lib.RegisterMask

/-! ## Registers -/

/-- The registers that the functions of this module change. -/
inductive MacReg where
  | gmacConfig
  | gmacFrameFilter
  | gmacFlowControl
  | dmaControl
deriving Repr, DecidableEq

/-- Disables the watchdog of the receiver. -/
def GmacWatchdog : BitVec 32 := 0x00800000#32

/-- Disables the jabber timer of the transmitter. -/
def GmacJabber : BitVec 32 := 0x00400000#32

/-- Frame bursting in half duplex. -/
def GmacFrameBurst : BitVec 32 := 0x00200000#32

/-- Accepts jumbo frames. -/
def GmacJumboFrame : BitVec 32 := 0x00100000#32

/-- Port select: MII instead of GMII. -/
def GmacMiiGmii : BitVec 32 := 0x00008000#32

/-- Fast Ethernet at 100 Mbit/s. -/
def GmacFESpeed100 : BitVec 32 := 0x00004000#32

/-- Fast Ethernet at 10 Mbit/s. -/
def GmacFESpeed10 : BitVec 32 := 0x00000000#32

/-- Disables the reception of own frames. -/
def GmacRxOwn : BitVec 32 := 0x00002000#32

/-- Loopback mode. -/
def GmacLoopback : BitVec 32 := 0x00001000#32

/-- Full duplex. -/
def GmacDuplex : BitVec 32 := 0x00000800#32

/-- Disables the retry after a collision. -/
def GmacRetry : BitVec 32 := 0x00000200#32

/-- Strips padding and checksum. -/
def GmacPadCrcStrip : BitVec 32 := 0x00000080#32

/-- The field of the back-off limit. -/
def GmacBackoffLimit : BitVec 32 := 0x00000060#32

/-- The value 00 of the back-off limit. -/
def GmacBackoffLimit0 : BitVec 32 := 0x00000000#32

/-- The deferral check in half duplex. -/
def GmacDeferralCheck : BitVec 32 := 0x00000010#32

/-- Enables the transmitter. -/
def GmacTx : BitVec 32 := 0x00000008#32

/-- Enables the receiver. -/
def GmacRx : BitVec 32 := 0x00000004#32

/-- Receives every frame. -/
def GmacFilter : BitVec 32 := 0x80000000#32

/-- The filter on source addresses. -/
def GmacSrcAddrFilter : BitVec 32 := 0x00000200#32

/-- The field for control frames. -/
def GmacPassControl : BitVec 32 := 0x000000C0#32

/-- No control frame passes. -/
def GmacPassControl0 : BitVec 32 := 0x00000000#32

/-- Refuses broadcast frames. -/
def GmacBroadcast : BitVec 32 := 0x00000020#32

/-- Passes every multicast frame. -/
def GmacMulticastFilter : BitVec 32 := 0x00000010#32

/-- Inverts the filter on destination addresses. -/
def GmacDestAddrFilterInv : BitVec 32 := 0x00000008#32

/-- Multicast frames are filtered by a hash. -/
def GmacMcastHashFilter : BitVec 32 := 0x00000004#32

/-- Unicast frames are filtered by a hash. -/
def GmacUcastHashFilter : BitVec 32 := 0x00000002#32

/-- Promiscuous mode. -/
def GmacPromiscuousMode : BitVec 32 := 0x00000001#32

/-- Detects pause frames with a unicast address. -/
def GmacUnicastPauseFrame : BitVec 32 := 0x00000008#32

/-- Obeys the pause frames received. -/
def GmacRxFlowControl : BitVec 32 := 0x00000004#32

/-- Sends pause frames. -/
def GmacTxFlowControl : BitVec 32 := 0x00000002#32

/-- Frames are stored before they are forwarded. -/
def DmaStoreAndForward : BitVec 32 := 0x02200000#32

/-- Starts the transmission. -/
def DmaTxStart : BitVec 32 := 0x00002000#32

/-- Threshold at which the flow control ends. -/
def DmaRxFlowCtrlDeact5K : BitVec 32 := 0x00400000#32

/-- Threshold at which the flow control begins. -/
def DmaRxFlowCtrlAct4K : BitVec 32 := 0x00000600#32

/-- The FIFO threshold of 128 bytes. -/
def DmaRxThreshCtrl128 : BitVec 32 := 0x00000018#32

/-- Flow control by the hardware. -/
def DmaEnHwFlowCtrl : BitVec 32 := 0x00000100#32

/-- Forwards frames with an error. -/
def DmaFwdErrorFrames : BitVec 32 := 0x00000080#32

/-- Works on a second frame. -/
def DmaTxSecondFrame : BitVec 32 := 0x00000004#32

/-- Starts the reception. -/
def DmaRxStart : BitVec 32 := 0x00000002#32

/-- The duplex field for half duplex. -/
def HALFDUPLEX : BitVec 32 := 1#32

/-- The duplex field for full duplex. -/
def FULLDUPLEX : BitVec 32 := 2#32

/-- The speed field for 10 Mbit/s. -/
def SPEED10 : BitVec 32 := 1#32

/-- The speed field for 100 Mbit/s. -/
def SPEED100 : BitVec 32 := 2#32

/-- The speed field for 1000 Mbit/s. -/
def SPEED1000 : BitVec 32 := 3#32

/-! ## One setting each -/

/-- A change of one of the registers. -/
abbrev MacWrite := Write MacReg 32

/-- `synopGMAC_wd_enable`. -/
def wdEnable : MacWrite := clearBits .gmacConfig GmacWatchdog

/-- `synopGMAC_jab_enable`. -/
def jabEnable : MacWrite := clearBits .gmacConfig GmacJabber

/-- `synopGMAC_frame_burst_enable`. -/
def frameBurstEnable : MacWrite := setBits .gmacConfig GmacFrameBurst

/-- `synopGMAC_jumbo_frame_disable`. -/
def jumboFrameDisable : MacWrite := clearBits .gmacConfig GmacJumboFrame

/-- `synopGMAC_rx_own_enable`. -/
def rxOwnEnable : MacWrite := clearBits .gmacConfig GmacRxOwn

/-- `synopGMAC_loopback_off`. -/
def loopbackOff : MacWrite := clearBits .gmacConfig GmacLoopback

/-- `synopGMAC_set_full_duplex`. -/
def setFullDuplex : MacWrite := setBits .gmacConfig GmacDuplex

/-- `synopGMAC_set_half_duplex`. -/
def setHalfDuplex : MacWrite := clearBits .gmacConfig GmacDuplex

/-- `synopGMAC_retry_enable`. -/
def retryEnable : MacWrite := clearBits .gmacConfig GmacRetry

/-- `synopGMAC_pad_crc_strip_disable`. -/
def padCrcStripDisable : MacWrite := clearBits .gmacConfig GmacPadCrcStrip

/-- `synopGMAC_back_off_limit`. -/
def backOffLimit (value : BitVec 32) : MacWrite := replaceBits .gmacConfig GmacBackoffLimit value

/-- `synopGMAC_deferral_check_disable`. -/
def deferralCheckDisable : MacWrite := clearBits .gmacConfig GmacDeferralCheck

/-- `synopGMAC_rx_enable`. -/
def rxEnable : MacWrite := setBits .gmacConfig GmacRx

/-- `synopGMAC_tx_enable`. -/
def txEnable : MacWrite := setBits .gmacConfig GmacTx

/-- `synopGMAC_select_gmii`. -/
def selectGmii : MacWrite := clearBits .gmacConfig GmacMiiGmii

/-- `synopGMAC_select_mii`. -/
def selectMii : MacWrite := setBits .gmacConfig GmacMiiGmii

/-- `synopGMAC_frame_filter_enable`. -/
def frameFilterEnable : MacWrite := clearBits .gmacFrameFilter GmacFilter

/-- `synopGMAC_frame_filter_disable`. -/
def frameFilterDisable : MacWrite := setBits .gmacFrameFilter GmacFilter

/-- `synopGMAC_set_pass_control`. -/
def setPassControl (passcontrol : BitVec 32) : MacWrite :=
  replaceBits .gmacFrameFilter GmacPassControl passcontrol

/-- `synopGMAC_broadcast_enable`. -/
def broadcastEnable : MacWrite := clearBits .gmacFrameFilter GmacBroadcast

/-- `synopGMAC_src_addr_filter_disable`. -/
def srcAddrFilterDisable : MacWrite := clearBits .gmacFrameFilter GmacSrcAddrFilter

/-- `synopGMAC_multicast_disable`. -/
def multicastDisable : MacWrite := clearBits .gmacFrameFilter GmacMulticastFilter

/-- `synopGMAC_dst_addr_filter_normal`. -/
def dstAddrFilterNormal : MacWrite := clearBits .gmacFrameFilter GmacDestAddrFilterInv

/-- `synopGMAC_multicast_hash_filter_disable`. -/
def multicastHashFilterDisable : MacWrite := clearBits .gmacFrameFilter GmacMcastHashFilter

/-- `synopGMAC_promisc_disable`. -/
def promiscDisable : MacWrite := clearBits .gmacFrameFilter GmacPromiscuousMode

/-- `synopGMAC_unicast_hash_filter_disable`. -/
def unicastHashFilterDisable : MacWrite := clearBits .gmacFrameFilter GmacUcastHashFilter

/-- `synopGMAC_unicast_pause_frame_detect_disable`. -/
def unicastPauseFrameDetectDisable : MacWrite := clearBits .gmacFlowControl GmacUnicastPauseFrame

/-- `synopGMAC_rx_flow_control_enable`. -/
def rxFlowControlEnable : MacWrite := setBits .gmacFlowControl GmacRxFlowControl

/-- `synopGMAC_rx_flow_control_disable`. -/
def rxFlowControlDisable : MacWrite := clearBits .gmacFlowControl GmacRxFlowControl

/-- `synopGMAC_tx_flow_control_enable`. -/
def txFlowControlEnable : MacWrite := setBits .gmacFlowControl GmacTxFlowControl

/-- `synopGMAC_tx_flow_control_disable`. -/
def txFlowControlDisable : MacWrite := clearBits .gmacFlowControl GmacTxFlowControl

/-- `synopGMAC_dma_control_init`: ors the bits into the register. -/
def dmaControlInit (initValue : BitVec 32) : MacWrite := writeReg .dmaControl initValue

/-- `synopGMAC_enable_dma_rx`. -/
def enableDmaRx : MacWrite := setBits .dmaControl DmaRxStart

/-- `synopGMAC_enable_dma_tx`. -/
def enableDmaTx : MacWrite := setBits .dmaControl DmaTxStart

/-- `synopGMAC_disable_dma_rx`. -/
def disableDmaRx : MacWrite := clearBits .dmaControl DmaRxStart

/-- `synopGMAC_disable_dma_tx`. -/
def disableDmaTx : MacWrite := clearBits .dmaControl DmaTxStart

/-- `synopGMAC_pause_control`. -/
def pauseControl : List MacWrite :=
  [setBits .dmaControl (DmaRxFlowCtrlAct4K ||| DmaRxFlowCtrlDeact5K ||| DmaEnHwFlowCtrl),
    setBits .gmacFlowControl (GmacRxFlowControl ||| GmacTxFlowControl ||| 0xFFFF0000#32)]

/-- The selection of the port, in both branches of `synopGMAC_mac_init`. -/
def selectPort (speed : BitVec 32) : List MacWrite :=
  if speed = SPEED1000 then [selectGmii]
  else
    [selectMii,
      if speed = SPEED100 then setBits .gmacConfig GmacFESpeed100
      else setBits .gmacConfig GmacFESpeed10]

/-- `synopGMAC_mac_init` without the loopback mode of the MAC. -/
def macInit (duplexMode speed : BitVec 32) : List MacWrite :=
  if duplexMode = FULLDUPLEX then
    [wdEnable, jabEnable, frameBurstEnable, jumboFrameDisable, rxOwnEnable, loopbackOff,
      setFullDuplex, retryEnable, padCrcStripDisable, backOffLimit GmacBackoffLimit0,
      deferralCheckDisable, txEnable, rxEnable, setBits .dmaControl DmaStoreAndForward,
      setBits .dmaControl DmaFwdErrorFrames] ++
    selectPort speed ++
    [frameFilterDisable, setPassControl GmacPassControl0, broadcastEnable, srcAddrFilterDisable,
      multicastDisable, dstAddrFilterNormal, multicastHashFilterDisable, promiscDisable,
      unicastHashFilterDisable, unicastPauseFrameDetectDisable, rxFlowControlEnable,
      txFlowControlEnable]
  else
    [wdEnable, jabEnable, frameBurstEnable, jumboFrameDisable, rxOwnEnable, loopbackOff,
      setHalfDuplex, retryEnable, padCrcStripDisable, backOffLimit GmacBackoffLimit0,
      deferralCheckDisable, setBits .dmaControl DmaStoreAndForward,
      setBits .dmaControl DmaFwdErrorFrames, txEnable, rxEnable] ++
    selectPort speed ++
    [frameFilterEnable, setPassControl GmacPassControl0, broadcastEnable, srcAddrFilterDisable,
      multicastDisable, dstAddrFilterNormal, multicastHashFilterDisable, promiscDisable,
      unicastHashFilterDisable, unicastPauseFrameDetectDisable, rxFlowControlDisable,
      txFlowControlDisable]

/-! ## What the function does -/

/-- The speeds that the function tells apart. -/
inductive Rate where
  | ten
  | hundred
  | thousand
deriving Repr, DecidableEq

/-- A mode of the link. -/
structure Mode where
  full : Bool
  rate : Rate
deriving Repr, DecidableEq

/-- The mode that the function takes its arguments for. -/
def modeOf (duplexMode speed : BitVec 32) : Mode where
  full := decide (duplexMode = FULLDUPLEX)
  rate := if speed = SPEED1000 then .thousand else if speed = SPEED100 then .hundred else .ten

/-- The registers for a mode, with or without the bit for 100 Mb/s. -/
def configured (fast : Bool) (m : Mode) : MacReg → Mask 32
  | .gmacConfig =>
      (Mask.clearing (GmacWatchdog ||| GmacJabber ||| GmacFrameBurst ||| GmacJumboFrame |||
        GmacRxOwn ||| GmacLoopback ||| GmacDuplex ||| GmacRetry ||| GmacPadCrcStrip |||
        GmacBackoffLimit ||| GmacDeferralCheck ||| GmacTx ||| GmacRx ||| GmacMiiGmii)).andThen
      (Mask.setting (GmacFrameBurst ||| GmacTx ||| GmacRx |||
        (if m.full then GmacDuplex else 0#32) |||
        (if m.rate = .thousand then 0#32 else GmacMiiGmii) |||
        (if fast then GmacFESpeed100 else 0#32)))
  | .gmacFrameFilter =>
      (Mask.clearing (GmacFilter ||| GmacPassControl ||| GmacBroadcast ||| GmacSrcAddrFilter |||
        GmacMulticastFilter ||| GmacDestAddrFilterInv ||| GmacMcastHashFilter |||
        GmacPromiscuousMode ||| GmacUcastHashFilter)).andThen
      (Mask.setting (if m.full then GmacFilter else 0#32))
  | .gmacFlowControl =>
      (Mask.clearing (GmacUnicastPauseFrame ||| GmacRxFlowControl ||| GmacTxFlowControl)).andThen
      (Mask.setting (if m.full then GmacRxFlowControl ||| GmacTxFlowControl else 0#32))
  | .dmaControl => Mask.setting (DmaStoreAndForward ||| DmaFwdErrorFrames)

/-- Of the DMA control register the configuration only sets bits. -/
theorem configured_dmaControl (fast : Bool) (m : Mode) :
    configured fast m .dmaControl = Mask.setting (DmaStoreAndForward ||| DmaFwdErrorFrames) :=
  rfl

/-- The writes of the initialisation are the configuration of the mode. -/
theorem masks_macInit (duplexMode speed : BitVec 32) (r : MacReg) :
    masks (macInit duplexMode speed) r =
      configured ((modeOf duplexMode speed).rate = .hundred) (modeOf duplexMode speed) r := by
  unfold macInit selectPort modeOf
  by_cases hduplex : duplexMode = FULLDUPLEX <;> by_cases hgmii : speed = SPEED1000 <;>
    by_cases hfast : speed = SPEED100 <;> simp only [hduplex, hgmii, hfast, if_true, if_false] <;>
    cases r <;> decide

/-- Another call replaces what the first one has done, up to the bit for 100 Mb/s. -/
theorem configured_andThen (fast fast' : Bool) (m m' : Mode) (r : MacReg) :
    (configured fast m r).andThen (configured fast' m' r) = configured (fast || fast') m' r := by
  obtain ⟨full, rate⟩ := m
  obtain ⟨full', rate'⟩ := m'
  cases r <;> cases full' <;> cases rate' <;> cases full <;> cases rate <;> cases fast <;>
    cases fast' <;> rfl

end Net
end Ls2kMorse
