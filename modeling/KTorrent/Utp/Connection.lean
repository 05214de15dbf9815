import KTorrent.Utp.RemoteWindow

/-!
# A uTP connection

The model of `utp/connection.cpp`.  A connection owns a receive window, a window
of packets in flight and a buffer of bytes to be sent; every packet that arrives
goes through `handlePacket`.

What a connection hands to its transmitter is appended to the field `sent`; the
transmitter (`UTPServer::sendTo`) takes every packet.  The clock, the measured
timeout and the rounded gain of the congestion control are inputs (`Clock`).  The
header bytes of a packet are not stored with its payload.

A function returns `none` where the receive window leaves its vector.
-/

namespace KTorrent
namespace Utp

/-- `ConnectionState`. -/
inductive ConnectionState where
  | idle
  | synSent
  | connected
  | finished
  | closed
  deriving DecidableEq, Repr

/-- A packet on the wire.  Its number is the one that the sender has counted up to. -/
structure Packet where
  type : PacketType
  connectionId : UInt16
  wndSize : ℕ
  number : ℕ
  ackNr : UInt16
  sack : Option SelectiveAck
  data : List UInt8
  deriving DecidableEq, Repr

/-- `hdr->seq_nr`. -/
def Packet.seqNr (p : Packet) : UInt16 := UInt16.ofNat p.number

/-- The header of a packet. -/
def Packet.hdr (p : Packet) : Header :=
  { type := p.type, connectionId := p.connectionId, wndSize := p.wndSize, seqNr := p.seqNr,
    ackNr := p.ackNr }

/-- What a call learns from the clock and from the delay measurement. -/
structure Clock where
  now : ℕ
  currentTimeout : ℕ
  /-- The gain of the congestion window, rounded. -/
  gain : ℤ
  deriving DecidableEq, Repr

/-- The surroundings of the send window. -/
def Clock.link (k : Clock) : Link :=
  { now := k.now, currentTimeout := k.currentTimeout, transmits := fun _ => true }

/-- `Header::size()`. -/
def headerSize : ℕ := 20

/-- `IP_AND_UDP_OVERHEAD`. -/
def ipAndUdpOverhead : ℕ := 28

/-- The capacity of the output buffer. -/
def outputCapacity : ℕ := 64 * 1024

/-- The capacity of the receive window. -/
def receiveCapacity : ℕ := 128 * 1024

/-- `PacketBuffer::fillData`: the payload, and the bytes that stay in the buffer. -/
def PacketBuffer.fillData (cbuf : List UInt8) (toRead : ℕ) : PacketBuffer × List UInt8 :=
  let toRead := min toRead (maxBufferSize - headerSize)
  ({ payload := cbuf.take toRead
     fits := (List.length_take_le _ _).trans ((Nat.min_le_right _ _).trans (Nat.sub_le _ _)) },
    cbuf.drop toRead)

/-- `Connection`. -/
structure Connection where
  state : ConnectionState
  recvConnectionId : UInt16
  sendConnectionId : UInt16
  /-- The number of the next packet, counted without bound. -/
  seqNr : ℕ
  /-- `-1` in the source as long as there has been no `ST_FIN`. -/
  eofSeqNr : Option UInt16
  localWnd : LocalWindow
  remoteWnd : RemoteWindow
  outputBuffer : List UInt8
  packetSize : ℕ
  lastWindowSizeTransmitted : ℕ
  finSent : Bool
  /-- What has been handed to the transmitter, the oldest packet first. -/
  sent : List Packet
  deriving DecidableEq, Repr

namespace Connection

/-- `Connection(recv_connection_id, INCOMING)`. -/
def incoming (recvConnectionId : UInt16) : Connection :=
  { state := .idle
    recvConnectionId := recvConnectionId
    sendConnectionId := recvConnectionId - 1
    seqNr := 5
    eofSeqNr := none
    localWnd := LocalWindow.new receiveCapacity
    remoteWnd := RemoteWindow.new
    outputBuffer := []
    packetSize := maxBufferSize - ipAndUdpOverhead - headerSize
    lastWindowSizeTransmitted := receiveCapacity
    finSent := false
    sent := [] }

/-! ## Sending -/

/-- `Connection::sendPacket`. -/
def sendPacket (c : Connection) (type : PacketType) (ackNr : UInt16) : Connection :=
  { c with
    lastWindowSizeTransmitted := c.localWnd.availableSpace
    sent := c.sent ++
      [{ type := type
         connectionId := if type = .stSyn then c.recvConnectionId else c.sendConnectionId
         wndSize := c.localWnd.availableSpace
         number := c.seqNr
         ackNr := ackNr
         sack := sackSent c.localWnd
         data := [] }] }

/-- `Connection::sendSYN`. -/
def sendSYN (c : Connection) : Connection :=
  let c := { c with seqNr := 1, state := .synSent }.sendPacket .stSyn 0
  { c with seqNr := c.seqNr + 1 }

/-- `Connection::sendState`. -/
def sendState (c : Connection) : Connection := c.sendPacket .stState c.localWnd.lastSeqNr

/-- `Connection::sendFIN`. -/
def sendFIN (c : Connection) : Connection := c.sendPacket .stFin c.localWnd.lastSeqNr

/-- `Connection::sendReset`. -/
def sendReset (c : Connection) : Connection := c.sendPacket .stReset c.localWnd.lastSeqNr

/-- `Connection(recv_connection_id, OUTGOING)` and `startConnecting`. -/
def connecting (recvConnectionId : UInt16) : Connection :=
  { incoming recvConnectionId with sendConnectionId := recvConnectionId + 1 }.sendSYN

/-- `Connection::sendDataPacket`. -/
def sendDataPacket (c : Connection) (packet : PacketBuffer) (number : ℕ) : Connection :=
  { c with
    lastWindowSizeTransmitted := c.localWnd.availableSpace
    sent := c.sent ++
      [{ type := .stData
         connectionId := c.sendConnectionId
         wndSize := c.localWnd.availableSpace
         number := number
         ackNr := c.localWnd.lastSeqNr
         sack := sackSent c.localWnd
         data := packet.payload }] }

/-- `Connection::retransmit`, for the packets that the send window sends again. -/
def retransmit (c : Connection) (packets : List UnackedPacket) : Connection :=
  packets.foldl (fun c p => c.sendDataPacket p.packet p.number) c

/-- How many bytes the next packet of `sendPackets` takes. -/
def toRead (c : Connection) : ℕ :=
  min (min (min c.outputBuffer.length c.remoteWnd.availableSpace) c.packetSize)
    (maxBufferSize - extensionLength c.localWnd - headerSize)

/-- The body of the loop of `sendPackets`. -/
def sendNext (c : Connection) (now : ℕ) : Connection :=
  let (packet, rest) := PacketBuffer.fillData c.outputBuffer c.toRead
  let c := { c with outputBuffer := rest }.sendDataPacket packet c.seqNr
  { c with remoteWnd := c.remoteWnd.addPacket packet c.seqNr now, seqNr := c.seqNr + 1 }

/-- The loop of `sendPackets`.  A round takes a byte at least, so the length of the
buffer bounds the rounds. -/
def sendLoop (now : ℕ) : ℕ → Connection → Connection
  | 0, c => c
  | fuel + 1, c =>
    if c.outputBuffer.length > 0 ∧ c.remoteWnd.availableSpace > 0 then
      if c.toRead = 0 then c else sendLoop now fuel (c.sendNext now)
    else c

/-- The end of `sendPackets`: when everything is sent, the connection says so. -/
def finishSending (c : Connection) : Connection :=
  if c.state = .finished ∧ c.finSent = false ∧ c.outputBuffer.length = 0 then
    { c.sendFIN with finSent := true }
  else c

/-- `Connection::sendPackets`. -/
def sendPackets (c : Connection) (now : ℕ) : Connection :=
  (sendLoop now c.outputBuffer.length c).finishSending

/-- `Connection::sendStateOrData`. -/
def sendStateOrData (c : Connection) (now : ℕ) : Connection :=
  if c.outputBuffer.length > 0 ∧ c.remoteWnd.availableSpace > 0 then c.sendPackets now
  else c.sendState

/-! ## Receiving -/

/-- `Connection::checkIfClosed`. -/
def checkIfClosed (c : Connection) : Connection :=
  if c.state = .finished ∧ c.remoteWnd.allPacketsAcked = true ∧ c.localWnd.incomingPackets.isEmpty = true then
    { c with state := .closed }
  else c

/-- `Connection::updateDelayMeasurement`. -/
def updateDelayMeasurement (c : Connection) (gain : ℤ) : Connection :=
  let remoteWnd := c.remoteWnd.updateWindowSize gain
  { c with
    remoteWnd := remoteWnd
    packetSize :=
      if remoteWnd.maxWindow ≤ minPacketSize then minPacketSize
      else if remoteWnd.maxWindow ≤ 1000 then 500
      else if remoteWnd.maxWindow ≤ 5000 then 1000
      else maxBufferSize - ipAndUdpOverhead - headerSize }

/-- What `handlePacket` does before it looks at the state. -/
def packetAcks (c : Connection) (k : Clock) (p : Packet) : Connection :=
  let (remoteWnd, resent) := c.remoteWnd.packetReceived k.link p.hdr p.sack
  ({ c with remoteWnd := remoteWnd }.retransmit resent).updateDelayMeasurement k.gain

/-- The branches that give the connection up. -/
def abort (c : Connection) : Connection := { c.sendReset with state := .closed }

/-- `SeqNrCmpSE(hdr->seq_nr, stats.eof_seq_nr)`; as a number of 16 bits, `-1` is the
largest one. -/
def beforeEof (c : Connection) (p : Packet) : Bool := seqNrCmpSE p.seqNr (c.eofSeqNr.getD 65535)

/-- The switch of `handlePacket`. -/
def dispatch (c : Connection) (now : ℕ) (p : Packet) : Option Connection :=
  match c.state with
  | .synSent =>
    if p.type = .stState then
      some { c with state := .connected, localWnd := c.localWnd.setLastSeqNr (p.seqNr - 1) }
    else some c.abort
  | .idle =>
    if p.type = .stSyn then
      some { { c with localWnd := c.localWnd.setLastSeqNr p.seqNr }.sendState with state := .connected }
    else some c.abort
  | .connected =>
    match p.type with
    | .stData =>
      match c.localWnd.packetReceived p.seqNr p.data 0 with
      | none => none
      | some (false, w) => some { c with localWnd := w }.abort
      | some (true, w) => some ({ c with localWnd := w }.sendStateOrData now)
    | .stState => some (c.sendPackets now)
    | .stFin =>
      some ({ c with eofSeqNr := some p.seqNr, state := .finished }.sendPackets now).checkIfClosed
    | .stReset => some c.abort
    | .stSyn => some c.abort
  | .finished =>
    match p.type with
    | .stData =>
      match (if c.beforeEof p then c.localWnd.packetReceived p.seqNr p.data 0
        else some (true, c.localWnd)) with
      | none => none
      | some (false, w) => some { c with localWnd := w }.abort
      | some (true, w) =>
        some ({ c with localWnd := w }.sendStateOrData now).finishSending.checkIfClosed
    | .stState => some (c.sendPackets now).checkIfClosed
    | .stFin => some ({ c with eofSeqNr := some p.seqNr }.sendPackets now).checkIfClosed
    | .stReset => some c.abort
    | .stSyn => some c.abort
  | .closed => some c

/-- `Connection::handlePacket`. -/
def handlePacket (c : Connection) (k : Clock) (p : Packet) : Option Connection :=
  (c.packetAcks k p).dispatch k.now p

/-! ## The calls of the application -/

/-- `Connection::send`; the bytes that were taken, or `none` for `-1`. -/
def send (c : Connection) (now : ℕ) (data : List UInt8) : Option (List UInt8) × Connection :=
  if c.state = .connected then
    let taken := data.take (outputCapacity - c.outputBuffer.length)
    (some taken, { c with outputBuffer := c.outputBuffer ++ taken }.sendPackets now)
  else (none, c)

/-- The end of `recv`: the peer is told when there is room again. -/
def updateWindow (c : Connection) : Connection :=
  if c.lastWindowSizeTransmitted < 2000 ∧ c.localWnd.availableSpace > 2000 then c.sendState else c

/-- `Connection::recv`; the bytes that are returned, or `none` for `-1`. -/
def recv (c : Connection) (maxLen : ℕ) : Option (Option (List UInt8) × Connection) :=
  let c := if c.state = .finished then c.checkIfClosed else c
  if c.localWnd.bytesAvailable = 0 ∧ c.state = .closed then some (none, c)
  else
    match c.localWnd.read maxLen with
    | none => none
    | some (data, w) => some (some data, { c with localWnd := w }.updateWindow)

/-- `Connection::close`. -/
def close (c : Connection) (now : ℕ) : Connection :=
  if c.state = .connected then { c with state := .finished }.sendPackets now else c

/-- `Connection::reset`. -/
def reset (c : Connection) : Connection :=
  if c.state ≠ .closed then
    { c.sendReset with
      state := .closed
      remoteWnd := { c.remoteWnd with unackedPackets := [] } }
  else c

/-- `Connection::handleTimeout`; `maxReached` and `keepAlive` are the two comparisons
of times in it. -/
def handleTimeout (c : Connection) (k : Clock) (maxReached keepAlive : Bool) : Connection :=
  match c.state with
  | .synSent => { c with state := .closed }
  | .finished => { c with state := .closed }
  | .connected =>
    let (remoteWnd, resent) := c.remoteWnd.timeout k.link
    let c := { { c with remoteWnd := remoteWnd }.retransmit resent with packetSize := minPacketSize }
    if maxReached then { c with state := .finished }.sendReset
    else
      let c := c.sendPackets k.now
      if keepAlive then c.sendState else c
  | .idle => c
  | .closed => c

end Connection
end Utp
end KTorrent
