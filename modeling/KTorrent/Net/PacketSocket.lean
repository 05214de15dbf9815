import KTorrent.Download.Packet

/-!
# The packet socket

The model of `PacketSocket`, which sends two queues of packets over one socket:
pieces, and control packets between them.

* `selectPacket`, `write`, `addPacket`, `clearPieces`, `doNotSendPiece` — as the
  source computes them.
* `Event`, `step` — what happens to a packet socket.
* `sendCurrent_wire` and its like — what one `send` changes.
-/

namespace KTorrent

/-- A packet that was selected. -/
structure Selection where
  packet : Packet
  /-- There was no control packet in the queue. -/
  controlsEmpty : Bool

/-- `PacketSocket`. -/
structure PacketSocket where
  controlPackets : List Packet
  dataPackets : List Packet
  currPacket : Option Packet
  ctrlPacketsSent : UInt32
  pendingUploadDataBytes : UInt32
  uploadedDataBytes : UInt32
  /-- History: the packets that were added, noted by `step`. -/
  added : List Packet
  /-- History: the packets that were selected. -/
  selected : List Selection
  /-- History: the bytes the device accepted. -/
  wire : List UInt8

namespace PacketSocket

open PeerMessageType

/-- `PacketSocket(sock)`. -/
def new : PacketSocket :=
  { controlPackets := [], dataPackets := [], currPacket := none, ctrlPacketsSent := 0
    pendingUploadDataBytes := 0, uploadedDataBytes := 0, added := [], selected := [], wire := [] }

/-- `PacketSocket::addPacket`. -/
def addPacket (s : PacketSocket) (packet : Packet) : PacketSocket :=
  if packet.type = piece then
    { s with
      pendingUploadDataBytes := s.pendingUploadDataBytes + packet.getDataLength
      dataPackets := s.dataPackets ++ [packet] }
  else { s with controlPackets := s.controlPackets ++ [packet] }

/-- A packet becomes the current one. -/
def select (s : PacketSocket) (packet : Packet) (controlsEmpty : Bool) : PacketSocket :=
  { s with
    currPacket := some packet
    selected := s.selected ++ [{ packet := packet, controlsEmpty := controlsEmpty }] }

/-- `PacketSocket::selectPacket`. -/
def selectPacket (s : PacketSocket) : PacketSocket :=
  let s := { s with currPacket := none }
  if s.ctrlPacketsSent < 3 then
    match s.controlPackets, s.dataPackets with
    | packet :: packets, _ => { s with controlPackets := packets }.select packet false
    | [], packet :: packets => { s with dataPackets := packets }.select packet true
    | [], [] => s
  else
    match s.dataPackets, s.controlPackets with
    | packet :: packets, controls =>
      { s with ctrlPacketsSent := 0, dataPackets := packets }.select packet controls.isEmpty
    | [], packet :: packets => { s with controlPackets := packets }.select packet false
    | [], [] => s

/-- One `send` of the current packet, of which the device accepts something. -/
def sendCurrent (s : PacketSocket) (p : Packet) (room limit : ℕ) : PacketSocket :=
  let ret := UInt32.ofNat (p.accepted room limit)
  let s := { s with
    currPacket := some (p.send room limit)
    wire := s.wire ++ p.handed room limit }
  if p.type = piece then
    { s with
      pendingUploadDataBytes := s.pendingUploadDataBytes - ret
      uploadedDataBytes := s.uploadedDataBytes + ret }
  else s

/-- The current packet is sent, and the next is selected. -/
def packetSent (s : PacketSocket) (p : Packet) : PacketSocket :=
  { s with ctrlPacketsSent := if p.type = piece then 0 else s.ctrlPacketsSent + 1 }.selectPacket

/-- What the loop of `write` lets a packet send: zero is no limit. -/
def limit (max written : ℕ) : ℕ := if max = 0 then 0 else max - written

/-- The loop of `write`, with the room the device has at each `send`; in the end it refuses. -/
def writeLoop (max : ℕ) : PacketSocket → ℕ → List ℕ → PacketSocket × ℕ
  | s, written, [] => (s, written)
  | s, written, room :: rooms =>
    match s.currPacket with
    | none => (s, written)
    | some p =>
      if written < max ∨ max = 0 then
        let ret := p.accepted room (limit max written)
        if ret > 0 then
          let s := s.sendCurrent p room (limit max written)
          if (p.send room (limit max written)).isSent then writeLoop max (s.packetSent p) (written + ret) rooms
          else (s, written + ret)
        else (s, written)
      else (s, written)

/-- `PacketSocket::write`; `connected` is false while the connection is not established. -/
def write (s : PacketSocket) (connected : Bool) (max : ℕ) (rooms : List ℕ) : PacketSocket × ℕ :=
  if !connected then (s, 0)
  else writeLoop max (if s.currPacket.isNone then s.selectPacket else s) 0 rooms

/-- The loop of `clearPieces` and `doNotSendPiece` at one packet of the queue. -/
def dropPacket (drop : Packet → Bool) (reject : Bool) (s : PacketSocket) (p : Packet) :
    PacketSocket :=
  if drop p then
    let s := { s with pendingUploadDataBytes := s.pendingUploadDataBytes - p.getDataLength }
    if reject then
      match p.makeRejectOfPiece with
      | some packet => s.addPacket packet
      | none => s
    else s
  else { s with dataPackets := s.dataPackets ++ [p] }

/-- The packets of the data queue that `drop` is true of are erased, each with a reject. -/
def dropPackets (s : PacketSocket) (drop : Packet → Bool) (reject : Bool) : PacketSocket :=
  s.dataPackets.foldl (dropPacket drop reject) { s with dataPackets := [] }

/-- The pieces that `clearPieces` drops. -/
def isCleared (p : Packet) : Bool := p.type == piece && !p.sending

/-- The pieces that `doNotSendPiece` drops. -/
def isUnwanted (req : Peer.Request) (p : Packet) : Bool := p.isPiece req && !p.sending

/-- `PacketSocket::clearPieces`. -/
def clearPieces (s : PacketSocket) (reject : Bool) : PacketSocket := s.dropPackets isCleared reject

/-- `PacketSocket::doNotSendPiece`. -/
def doNotSendPiece (s : PacketSocket) (req : Peer.Request) (reject : Bool) : PacketSocket :=
  s.dropPackets (isUnwanted req) reject

/-- `PacketSocket::numPendingPieceUploads`. -/
def numPendingPieceUploads (s : PacketSocket) : ℕ :=
  s.dataPackets.length +
    match s.currPacket with
    | some p => if p.type = piece then 1 else 0
    | none => 0

/-- `PacketSocket::numPendingPieceUploadBytes`. -/
def numPendingPieceUploadBytes (s : PacketSocket) : UInt32 := s.pendingUploadDataBytes

/-- `PacketSocket::dataBytesUploaded`. -/
def dataBytesUploaded (s : PacketSocket) : UInt32 × PacketSocket :=
  (s.uploadedDataBytes, { s with uploadedDataBytes := 0 })

/-! ## Runs -/

/-- What happens to a packet socket. -/
inductive Event where
  /-- A packet of which nothing is sent. -/
  | addPacket (packet : { p : Packet // p.written = 0 })
  | write (connected : Bool) (max : ℕ) (rooms : List ℕ)
  | clearPieces (reject : Bool)
  | doNotSendPiece (req : Peer.Request) (reject : Bool)
  | dataBytesUploaded

/-- The socket does what the event asks for. -/
def handle (s : PacketSocket) : Event → PacketSocket
  | .addPacket packet => s.addPacket packet
  | .write connected max rooms => (s.write connected max rooms).1
  | .clearPieces reject => s.clearPieces reject
  | .doNotSendPiece req reject => s.doNotSendPiece req reject
  | .dataBytesUploaded => s.dataBytesUploaded.2

/-- The rejects of the packets that are dropped. -/
def rejects (drop : Packet → Bool) (reject : Bool) (packets : List Packet) : List Packet :=
  if reject then (packets.filter drop).filterMap Packet.makeRejectOfPiece else []

/-- The packets that are added with an event: its own, or the rejects of the pieces in the queue
that it drops. -/
def Event.packets (s : PacketSocket) : Event → List Packet
  | .addPacket packet => [packet]
  | .clearPieces reject => rejects isCleared reject s.dataPackets
  | .doNotSendPiece req reject => rejects (isUnwanted req) reject s.dataPackets
  | .write .. | .dataBytesUploaded => []

/-- The history goes on. -/
def record (s : PacketSocket) (packets : List Packet) : PacketSocket :=
  { s with added := s.added ++ packets }

/-- One event. -/
def step (s : PacketSocket) (e : Event) : PacketSocket := (s.handle e).record (e.packets s)

/-! ## What an operation changes -/

/-- The packets that were selected. -/
def selectedPackets (selected : List Selection) : List Packet := selected.map (·.packet)

section

variable (s : PacketSocket) (p : Packet) (b : Bool)

@[simp] theorem select_controlPackets : (s.select p b).controlPackets = s.controlPackets := rfl

@[simp] theorem select_dataPackets : (s.select p b).dataPackets = s.dataPackets := rfl

@[simp] theorem select_added : (s.select p b).added = s.added := rfl

@[simp] theorem selectedPackets_select :
    selectedPackets (s.select p b).selected = selectedPackets s.selected ++ [p] :=
  List.map_append

end

section

variable (s : PacketSocket) (p : Packet) (room limit : ℕ)

@[simp] theorem sendCurrent_controlPackets :
    (s.sendCurrent p room limit).controlPackets = s.controlPackets := by
  unfold sendCurrent
  split
  · rfl
  · rfl

@[simp] theorem sendCurrent_dataPackets :
    (s.sendCurrent p room limit).dataPackets = s.dataPackets := by
  unfold sendCurrent
  split
  · rfl
  · rfl

@[simp] theorem sendCurrent_currPacket :
    (s.sendCurrent p room limit).currPacket = some (p.send room limit) := by
  unfold sendCurrent
  split
  · rfl
  · rfl

@[simp] theorem sendCurrent_ctrlPacketsSent :
    (s.sendCurrent p room limit).ctrlPacketsSent = s.ctrlPacketsSent := by
  unfold sendCurrent
  split
  · rfl
  · rfl

@[simp] theorem sendCurrent_added : (s.sendCurrent p room limit).added = s.added := by
  unfold sendCurrent
  split
  · rfl
  · rfl

@[simp] theorem sendCurrent_selected : (s.sendCurrent p room limit).selected = s.selected := by
  unfold sendCurrent
  split
  · rfl
  · rfl

@[simp] theorem sendCurrent_wire :
    (s.sendCurrent p room limit).wire = s.wire ++ p.handed room limit := by
  unfold sendCurrent
  split
  · rfl
  · rfl

theorem sendCurrent_pending : (s.sendCurrent p room limit).numPendingPieceUploadBytes =
    if p.type = piece then
      s.numPendingPieceUploadBytes - UInt32.ofNat (p.accepted room limit)
    else s.numPendingPieceUploadBytes := by
  unfold sendCurrent
  split
  · rfl
  · rfl

end

theorem makeReject_type {p r : Packet} (h : p.makeRejectOfPiece = some r) :
    r.type = rejectRequest ∧ r.written = 0 := by
  unfold Packet.makeRejectOfPiece at h
  split at h
  · cases h
  · split at h
    · rw [← Option.some.inj h]
      exact ⟨rfl, rfl⟩
    · cases h

end PacketSocket

end KTorrent
