import KTorrent.Utp.SelectiveAck
import KTorrent.Util.Constants

/-!
# The packets in flight

The model of `utp/remotewindow.cpp`.  The window keeps the packets that have been
sent and not acknowledged, in the order in which they were sent.

A packet has the number that the sender has counted up to; on the wire, and in
every comparison below, it is that number modulo `2 ^ 16`.  What the window asks
its surroundings for (the time, the timeout, whether a packet could be sent
again) is in `Link`.
-/

namespace KTorrent
namespace Utp

/-- The type field of a header. -/
inductive PacketType where
  | stData
  | stFin
  | stState
  | stReset
  | stSyn
  deriving DecidableEq, Repr

/-- `Header`, without version and timestamps. -/
structure Header where
  type : PacketType
  connectionId : UInt16
  wndSize : ℕ
  seqNr : UInt16
  ackNr : UInt16
  deriving DecidableEq, Repr

/-- `PacketBuffer::MAX_SIZE`. -/
def maxBufferSize : ℕ := 1500

/-- `PacketBuffer`: the payload of a packet. -/
structure PacketBuffer where
  payload : List UInt8
  fits : payload.length ≤ maxBufferSize
  deriving DecidableEq, Repr

/-- `PacketBuffer::payloadSize`. -/
def PacketBuffer.payloadSize (b : PacketBuffer) : ℕ := b.payload.length

/-- `UnackedPacket`. -/
structure UnackedPacket where
  packet : PacketBuffer
  /-- The number of the packet, counted without bound. -/
  number : ℕ
  sendTime : ℕ
  retransmitted : Bool
  deriving DecidableEq, Repr

/-- `UnackedPacket::seq_nr`. -/
def UnackedPacket.seqNr (p : UnackedPacket) : UInt16 := UInt16.ofNat p.number

/-- What the window learns from the clock and from its `Retransmitter`. -/
structure Link where
  now : ℕ
  currentTimeout : ℕ
  /-- Sending a packet again succeeds. -/
  transmits : UInt16 → Bool

/-- A link at time 0 that transmits everything. -/
def quietLink : Link := { now := 0, currentTimeout := 500, transmits := fun _ => true }

/-- `MIN_PACKET_SIZE`. -/
def minPacketSize : ℕ := 150

/-- `RemoteWindow`. -/
structure RemoteWindow where
  curWindow : ℕ
  maxWindow : ℕ
  wndSize : ℕ
  lastAckNr : UInt16
  lastAckReceiveCount : ℕ
  unackedPackets : List UnackedPacket
  deriving DecidableEq, Repr

/-! ## Sending again -/

/-- Packets, those of them that were sent again, and whether any of them were lost. -/
structure Resent where
  packets : List UnackedPacket
  resent : List UnackedPacket
  lost : Bool

/-- A packet that is lost is sent once more, and then once in each timeout. -/
def Link.due (l : Link) (p : UnackedPacket) : Bool :=
  !p.retransmitted || l.currentTimeout < sub64 l.now p.sendTime

/-- One packet is sent again, if that succeeds. -/
def Link.retransmit (l : Link) (p : UnackedPacket) : UnackedPacket :=
  if l.transmits p.seqNr then { p with sendTime := l.now, retransmitted := true } else p

/-- One step of the loops of `checkLostPackets`. -/
def Link.checkPacket (l : Link) (lost : Bool) (p : UnackedPacket) (rest : Resent) : Resent :=
  if lost && l.due p then
    { packets := l.retransmit p :: rest.packets
      resent := if l.transmits p.seqNr then p :: rest.resent else rest.resent
      lost := true }
  else { rest with packets := p :: rest.packets }

/-- `RemoteWindow::lost`: the loop downwards from bit `i - 1`, with the number of bits
that were on. -/
def lostFrom (sack : SelectiveAck) : ℕ → ℕ → ℕ
  | 0, _ => 0
  | i + 1, on =>
    if acked sack (UInt16.ofNat i) then if on + 1 = 3 then i else lostFrom sack i (on + 1)
    else lostFrom sack i on

/-- `RemoteWindow::lost`. -/
def lost (sack : SelectiveAck) : ℕ := lostFrom sack (sack.length * 8) 0

/-- The loop of `checkLostPackets` over the packets that a selective ack is about. -/
def Link.checkSack (l : Link) (hdr : Header) (sack : Option SelectiveAck)
    (packets : List UnackedPacket) : Resent :=
  match sack with
  | none => ⟨packets, [], false⟩
  | some sack =>
    if lost sack > 0 then
      packets.foldr (fun p => l.checkPacket ((p.seqNr - hdr.ackNr).toNat < lost sack) p) ⟨[], [], false⟩
    else ⟨packets, [], false⟩

/-- The loop of `timeout`, which ends when a packet cannot be sent. -/
def Link.resendAll (l : Link) : List UnackedPacket → List UnackedPacket × List UnackedPacket
  | [] => ([], [])
  | p :: ps =>
    if l.due p then
      if l.transmits p.seqNr then
        let (packets, resent) := l.resendAll ps
        (l.retransmit p :: packets, p :: resent)
      else (p :: ps, [])
    else
      let (packets, resent) := l.resendAll ps
      (p :: packets, resent)

/-! ## The window -/

/-- The packet is acknowledged: by the number in the header or by its bit. -/
def acknowledged (hdr : Header) (sack : Option SelectiveAck) (p : UnackedPacket) : Bool :=
  seqNrCmpSE p.seqNr hdr.ackNr || sack.any fun s => acked s (p.seqNr - hdr.ackNr)

namespace RemoteWindow

/-- `RemoteWindow()`. -/
def new : RemoteWindow :=
  { curWindow := 0, maxWindow := 64 * 1024, wndSize := 0, lastAckNr := 0,
    lastAckReceiveCount := 0, unackedPackets := [] }

/-- `RemoteWindow::availableSpace`. -/
def availableSpace (w : RemoteWindow) : ℕ :=
  if w.curWindow > min w.wndSize w.maxWindow then 0 else min w.wndSize w.maxWindow - w.curWindow

/-- `RemoteWindow::allPacketsAcked`. -/
def allPacketsAcked (w : RemoteWindow) : Bool := w.unackedPackets.isEmpty

/-- The first loop of `packetReceived`: the packets that stay, and `cur_window`. -/
def removeAcked (hdr : Header) (sack : Option SelectiveAck) :
    List UnackedPacket → ℕ → List UnackedPacket × ℕ
  | [], cur => ([], cur)
  | p :: ps, cur =>
    if seqNrCmpSE p.seqNr hdr.ackNr then
      removeAcked hdr sack ps (sub32 cur p.packet.payloadSize)
    else
      match sack with
      | none => (p :: ps, cur)
      | some s =>
        if acked s (p.seqNr - hdr.ackNr) then
          removeAcked hdr sack ps (sub32 cur p.packet.payloadSize)
        else
          let (rest, cur) := removeAcked hdr sack ps cur
          (p :: rest, cur)

/-- `RemoteWindow::checkLostPackets`, with the packets that were sent again. -/
def checkLostPackets (l : Link) (w : RemoteWindow) (hdr : Header) (sack : Option SelectiveAck) :
    RemoteWindow × List UnackedPacket :=
  let checked : Resent :=
    match w.unackedPackets with
    | [] => ⟨[], [], false⟩
    | first :: rest =>
      if w.lastAckReceiveCount ≥ 3 ∧ first.seqNr.toNat = hdr.ackNr.toNat + 1 then
        l.checkPacket true first (l.checkSack hdr sack rest)
      else l.checkSack hdr sack (first :: rest)
  ({ w with
      unackedPackets := checked.packets
      maxWindow := if checked.lost then u32 ((78 * w.maxWindow + 50) / 100) else w.maxWindow },
    checked.resent)

/-- `RemoteWindow::packetReceived`, with the packets that were sent again. -/
def packetReceived (l : Link) (w : RemoteWindow) (hdr : Header) (sack : Option SelectiveAck) :
    RemoteWindow × List UnackedPacket :=
  let count :=
    if hdr.ackNr = w.lastAckNr then
      if hdr.type = .stState then w.lastAckReceiveCount + 1 else w.lastAckReceiveCount
    else 1
  let (packets, cur) := removeAcked hdr sack w.unackedPackets w.curWindow
  checkLostPackets l
    { w with
      lastAckNr := hdr.ackNr, lastAckReceiveCount := u32 count, wndSize := hdr.wndSize,
      unackedPackets := packets, curWindow := cur }
    hdr sack

/-- `RemoteWindow::addPacket`. -/
def addPacket (w : RemoteWindow) (packet : PacketBuffer) (number sendTime : ℕ) : RemoteWindow :=
  { w with
    curWindow := u32 (w.curWindow + packet.payloadSize)
    wndSize := sub32 w.wndSize packet.payloadSize
    unackedPackets := w.unackedPackets ++
      [{ packet := packet, number := number, sendTime := sendTime, retransmitted := false }] }

/-- `RemoteWindow::timeout`, with the packets that were sent again. -/
def timeout (l : Link) (w : RemoteWindow) : RemoteWindow × List UnackedPacket :=
  let (packets, resent) := l.resendAll w.unackedPackets
  ({ w with maxWindow := minPacketSize, unackedPackets := packets }, resent)

/-- `RemoteWindow::updateWindowSize`; `d` is the rounded gain. -/
def updateWindowSize (w : RemoteWindow) (d : ℤ) : RemoteWindow :=
  let size := ((w.maxWindow + d) % 2 ^ 32).toNat
  { w with maxWindow := if size < minPacketSize then minPacketSize else size }

end RemoteWindow

end Utp
end KTorrent
