import Mathlib.Data.BitVec

/-!
# The Ethernet MAC

`EthGigMAC` frames the bytes of its transmit queue with preamble, padding and frame check
sequence, and takes received frames apart again. A received frame is collected, checked and
only then copied to the receive queue. The two directions share no register, so that each
is a record of its own. Indexes and counts stay within `FIFO_DEPTH`, which is below `2 ^ 32`,
and are numbers.
-/

namespace CppHdl.Devices

namespace EthGigMac

abbrev ETHERNET_MIN_PAYLOAD_BYTES : Nat := 60
abbrev ETHERNET_IPG_BYTES : Nat := 12
abbrev ETHERNET_CRC_RESIDUE : BitVec 32 := 0xdebb20e3

/-- One bit of the frame check sequence. -/
def crcBit (value : BitVec 32) : BitVec 32 :=
  if value.getLsbD 0 then value >>> 1 ^^^ 0xedb88320 else value >>> 1

def crc32Next (crc : BitVec 32) (data : BitVec 8) : BitVec 32 :=
  (List.range 8).foldl (fun value _ => crcBit value) (crc ^^^ data.setWidth 32)

/-- `tx_rd_next_comb` and its three siblings. -/
def nextIndex (FIFO_DEPTH index : Nat) : Nat := if FIFO_DEPTH ≤ index + 1 then 0 else index + 1

inductive TxState
  | idle
  | preamble
  | payload
  | pad
  | fcs
  | ipg
  deriving DecidableEq

inductive RxState
  | seek
  | payload
  | copy
  | drop
  deriving DecidableEq

end EthGigMac

open EthGigMac

structure MacTx where
  txData : Nat → BitVec 8
  txLast : Nat → Bool
  txRd : Nat
  txWr : Nat
  txCount : Nat
  pcsTxValid : Bool
  pcsTxData : BitVec 8
  pcsTxLast : Bool
  txState : TxState
  txPreambleIndex : Nat
  txCrc : BitVec 32
  txPayloadLen : BitVec 32
  txFcs : BitVec 32
  txFcsIndex : Nat
  txIpgCount : Nat
  txFrames : BitVec 32
  txBytes : BitVec 32

structure MacTxInputs where
  reset : Bool
  txValid : Bool
  txData : BitVec 8
  txLast : Bool
  pcsTxReady : Bool

namespace MacTx

variable (FIFO_DEPTH : Nat) (s : MacTx) (i : MacTxInputs)

def txReady : Bool := decide (s.txCount ≠ FIFO_DEPTH)

def txIdle : Bool := decide (s.txState = .idle) && decide (s.txCount = 0) && !s.pcsTxValid

def txPush : Bool := i.txValid && s.txReady FIFO_DEPTH

def txCanEmit : Bool := !s.pcsTxValid || i.pcsTxReady

def txPopPayload : Bool :=
  s.txCanEmit i && decide (s.txState = .payload) && decide (s.txCount ≠ 0)

/-- A byte goes out, and counts for the check sequence. -/
def emit (byte : BitVec 8) (n : MacTx) : MacTx :=
  { n with
    pcsTxValid := true
    pcsTxData := byte
    txCrc := crc32Next s.txCrc byte
    txPayloadLen := s.txPayloadLen + 1 }

/-- The check sequence is next. -/
def startFcs (n : MacTx) : MacTx :=
  { n with txFcs := ~~~n.txCrc, txFcsIndex := 0, txState := .fcs }

def frame (n : MacTx) : MacTx :=
  let n := { n with pcsTxValid := false, pcsTxLast := false }
  match s.txState with
  | .idle =>
      if s.txCount ≠ 0 then
        { n with
          txState := .preamble
          txPreambleIndex := 0
          txCrc := 0xffffffff
          txPayloadLen := 0 }
      else n
  | .preamble =>
      if s.txPreambleIndex < 7 then
        { n with pcsTxValid := true, pcsTxData := 0x55, txPreambleIndex := s.txPreambleIndex + 1 }
      else { n with pcsTxValid := true, pcsTxData := 0xd5, txState := .payload }
  | .payload =>
      if s.txCount ≠ 0 then
        let n := s.emit (s.txData s.txRd) n
        if s.txLast s.txRd then
          if (s.txPayloadLen + 1).toNat < ETHERNET_MIN_PAYLOAD_BYTES then { n with txState := .pad }
          else n.startFcs
        else n
      else n
  | .pad =>
      let n := s.emit 0 n
      if ETHERNET_MIN_PAYLOAD_BYTES ≤ (s.txPayloadLen + 1).toNat then n.startFcs else n
  | .fcs =>
      let n := { n with
        pcsTxValid := true
        pcsTxData := s.txFcs.extractLsb' (s.txFcsIndex * 8) 8
        pcsTxLast := decide (s.txFcsIndex = 3) }
      if s.txFcsIndex = 3 then
        { n with txState := .ipg, txIpgCount := 0, txFrames := s.txFrames + 1 }
      else { n with txFcsIndex := s.txFcsIndex + 1 }
  | .ipg =>
      if ETHERNET_IPG_BYTES ≤ s.txIpgCount + 1 then { n with txState := .idle }
      else { n with txIpgCount := s.txIpgCount + 1 }

/-- A reset leaves the cells of the queue. -/
def cleared (n : MacTx) : MacTx :=
  { n with
    txRd := 0
    txWr := 0
    txCount := 0
    pcsTxValid := false
    pcsTxData := 0
    pcsTxLast := false
    txState := .idle
    txPreambleIndex := 0
    txCrc := 0xffffffff
    txPayloadLen := 0
    txFcs := 0
    txFcsIndex := 0
    txIpgCount := 0
    txFrames := 0
    txBytes := 0 }

def txCountNext : Nat :=
  if (s.txPush FIFO_DEPTH i && !s.txPopPayload i) = true then s.txCount + 1
  else if (!s.txPush FIFO_DEPTH i && s.txPopPayload i) = true then s.txCount - 1
  else s.txCount

def work : MacTx :=
  let n := if s.txPush FIFO_DEPTH i then
      { s with
        txData := Function.update s.txData s.txWr i.txData
        txLast := Function.update s.txLast s.txWr i.txLast
        txWr := nextIndex FIFO_DEPTH s.txWr }
    else s
  let n := if s.txCanEmit i then s.frame n else n
  let n := if s.txPopPayload i then
      { n with txRd := nextIndex FIFO_DEPTH s.txRd, txBytes := s.txBytes + 1 } else n
  let n := { n with txCount := s.txCountNext FIFO_DEPTH i }
  if i.reset then n.cleared else n

end MacTx

structure MacRx where
  rxData : Nat → BitVec 8
  rxLast : Nat → Bool
  rxRd : Nat
  rxWr : Nat
  rxCount : Nat
  rxFrameData : Nat → BitVec 8
  rxFrameCount : Nat
  rxPayloadCount : Nat
  rxCopyIndex : Nat
  rxPreambleCount : Nat
  rxState : RxState
  rxCrc : BitVec 32
  rxFrames : BitVec 32
  rxBytes : BitVec 32

structure MacRxInputs where
  reset : Bool
  localMac : BitVec 48
  localIp : BitVec 32
  localMask : BitVec 32
  promisc : Bool
  pcsRxValid : Bool
  pcsRxData : BitVec 8
  pcsRxLast : Bool
  rxReady : Bool

namespace MacRx

variable (FIFO_DEPTH : Nat) (s : MacRx) (i : MacRxInputs)

def rxValid : Bool := decide (s.rxCount ≠ 0)

def rxDataOut : BitVec 8 := s.rxData s.rxRd

def rxLastOut : Bool := s.rxLast s.rxRd

def pcsRxReady : Bool := decide (s.rxState ≠ .copy)

def rxDestIsBroadcast : Bool := (List.range 6).all fun k => s.rxFrameData k = 0xff

def rxDestMatchesLocal : Bool :=
  (List.range 6).all fun k => s.rxFrameData k = i.localMac.extractLsb' (k * 8) 8

def rxIpv4DstAddr : BitVec 32 :=
  s.rxFrameData 30 ++ s.rxFrameData 31 ++ s.rxFrameData 32 ++ s.rxFrameData 33

def rxFrameAccept : Bool :=
  if i.promisc then true
  else if !(s.rxDestIsBroadcast || s.rxDestMatchesLocal i) then false
  else if s.rxFrameData 12 ++ s.rxFrameData 13 = (0x0800 : BitVec 16) ∧ i.localMask ≠ 0 ∧
      38 ≤ s.rxFrameCount then
    decide (s.rxIpv4DstAddr &&& i.localMask = i.localIp &&& i.localMask)
  else true

def rxByteIn : Bool := i.pcsRxValid && s.pcsRxReady

def rxPop : Bool := s.rxValid && i.rxReady

def rxFifoPush : Bool := decide (s.rxState = .copy) && decide (s.rxCount ≠ FIFO_DEPTH)

/-- The search for a frame starts over. -/
def restart (n : MacRx) : MacRx :=
  { n with rxState := .seek, rxFrameCount := 0, rxPreambleCount := 0 }

def byteIn (n : MacRx) : MacRx :=
  let rxByte := i.pcsRxData
  match s.rxState with
  | .seek =>
      if rxByte = 0x55 ∧ s.rxPreambleCount < 7 then
        { n with rxPreambleCount := s.rxPreambleCount + 1 }
      else if rxByte = 0xd5 ∧ 7 ≤ s.rxPreambleCount then
        { n with
          rxState := .payload
          rxFrameCount := 0
          rxCrc := 0xffffffff
          rxPreambleCount := 0 }
      else if rxByte = 0x55 then { n with rxPreambleCount := 1 }
      else { n with rxPreambleCount := 0 }
  | .drop => if i.pcsRxLast then n.restart else n
  | .payload =>
      let nextCount := s.rxFrameCount + 1
      let nextCrc := crc32Next s.rxCrc rxByte
      let n := { n with
        rxFrameData := Function.update s.rxFrameData s.rxFrameCount rxByte
        rxFrameCount := nextCount
        rxCrc := nextCrc }
      let n := if nextCount = FIFO_DEPTH ∧ i.pcsRxLast = false then
          { n with rxState := .drop, rxFrameCount := 0 } else n
      if i.pcsRxLast then
        if 64 ≤ nextCount ∧ nextCrc = ETHERNET_CRC_RESIDUE ∧ s.rxFrameAccept i = true then
          { n with rxPayloadCount := nextCount - 4, rxCopyIndex := 0, rxState := .copy }
        else n.restart
      else n
  | .copy => n

/-- A byte of the frame goes to the receive queue. -/
def copyOut (n : MacRx) : MacRx :=
  let last := decide (s.rxPayloadCount ≤ s.rxCopyIndex + 1)
  let n := { n with
    rxData := Function.update s.rxData s.rxWr (s.rxFrameData s.rxCopyIndex)
    rxLast := Function.update s.rxLast s.rxWr last
    rxWr := nextIndex FIFO_DEPTH s.rxWr
    rxBytes := s.rxBytes + 1 }
  if last then
    { n with rxFrames := s.rxFrames + 1, rxState := .seek, rxFrameCount := 0, rxCopyIndex := 0 }
  else { n with rxCopyIndex := s.rxCopyIndex + 1 }

def cleared (n : MacRx) : MacRx :=
  { n with
    rxRd := 0
    rxWr := 0
    rxCount := 0
    rxFrameCount := 0
    rxPayloadCount := 0
    rxCopyIndex := 0
    rxPreambleCount := 0
    rxState := .seek
    rxCrc := 0xffffffff
    rxFrames := 0
    rxBytes := 0 }

def rxCountNext : Nat :=
  if (s.rxFifoPush FIFO_DEPTH && !s.rxPop i) = true then s.rxCount + 1
  else if (!s.rxFifoPush FIFO_DEPTH && s.rxPop i) = true then s.rxCount - 1
  else s.rxCount

def work : MacRx :=
  let n := if s.rxByteIn i then s.byteIn FIFO_DEPTH i s else s
  let n := if s.rxFifoPush FIFO_DEPTH then s.copyOut FIFO_DEPTH n else n
  let n := if s.rxPop i then { n with rxRd := nextIndex FIFO_DEPTH s.rxRd } else n
  let n := { n with rxCount := s.rxCountNext FIFO_DEPTH i }
  if i.reset then n.cleared else n

end MacRx

end CppHdl.Devices
