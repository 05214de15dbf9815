import KTorrent.Net.PacketSocket

/-!
# The uploader of a peer

The model of `PeerUploader` and of what `Peer` does with it: a request is taken,
waits in the uploader, becomes a piece in the packet socket or is rejected.

* `handleRequest`, `handleCancel`, `choke`, `sendUnchoke`, `pause` — of `Peer`.
* `addRequest`, `removeRequest`, `handleRequests`, `clearAllRequests` — of
  `PeerUploader`.
* `UploadEvent`, `step` — what happens to the upload side of a peer.
-/

namespace KTorrent

/-- The upload side of a `Peer`, with its `PeerUploader`. -/
structure UploadPeer where
  fastExtensions : Bool
  hasUploadSlot : Bool
  paused : Bool
  /-- The requests that wait in the uploader. -/
  requests : List Peer.Request
  sock : PacketSocket
  /-- History: the requests that were received, noted by `step`. -/
  received : List Peer.Request

namespace UploadPeer

open PeerMessageType

/-- A new peer. -/
def new (fastExtensions : Bool) : UploadPeer :=
  { fastExtensions := fastExtensions, hasUploadSlot := false, paused := false, requests := []
    sock := .new, received := [] }

/-- `PacketSocket::addPacket`, of the socket of the peer. -/
def addPacket (s : UploadPeer) (packet : Packet) : UploadPeer :=
  { s with sock := s.sock.addPacket packet }

/-- `Peer::sendReject`. -/
def sendReject (s : UploadPeer) (r : Peer.Request) : UploadPeer :=
  s.addPacket (.createRequest r rejectRequest)

/-- What `sendChunk` asks the packet socket. -/
def pending (s : UploadPeer) : Peer.PacketSocket :=
  { pendingPieceUploads := UInt32.ofNat s.sock.numPendingPieceUploads
    pendingPieceUploadBytes := s.sock.numPendingPieceUploadBytes }

/-- `Peer::sendChunk`. -/
def sendChunk (s : UploadPeer) (index begin_ len : UInt32) (ch : Peer.Chunk) : Option UploadPeer :=
  if Peer.accepts s.pending begin_ len ch then
    some (s.addPacket (.createPiece index begin_ len ch))
  else none

/-- `Peer::areWeChoked`. -/
def areWeChoked (s : UploadPeer) : Bool := !s.hasUploadSlot || s.paused

/-! ## The uploader -/

/-- `PeerUploader::addRequest`. -/
def addRequest (s : UploadPeer) (r : Peer.Request) : UploadPeer :=
  { s with requests := s.requests ++ [r] }

/-- `PeerUploader::removeRequest`. -/
def removeRequest (s : UploadPeer) (r : Peer.Request) : UploadPeer :=
  { s with requests := s.requests.filter fun r' => r' ≠ r }

/-- A reject, where the peer understands it. -/
def rejectFast (s : UploadPeer) (r : Peer.Request) : UploadPeer :=
  if s.fastExtensions then s.sendReject r else s

/-- The loop of `PeerUploader::handleRequests` at one request; `chunks` are the chunks on disk. -/
def answerRequest (chunks : UInt32 → Option Peer.Chunk) (s : UploadPeer) (r : Peer.Request) :
    UploadPeer :=
  match chunks r.index with
  | some c => (s.sendChunk r.index r.offset r.length c).getD (s.rejectFast r)
  | none => s.rejectFast r

/-- `PeerUploader::handleRequests`. -/
def handleRequests (s : UploadPeer) (chunks : UInt32 → Option Peer.Chunk) : UploadPeer :=
  if s.areWeChoked then s
  else { s.requests.foldl (answerRequest chunks) s with requests := [] }

/-- `PeerUploader::clearAllRequests`. -/
def clearAllRequests (s : UploadPeer) : UploadPeer :=
  let s := { s with sock := s.sock.clearPieces s.fastExtensions }
  let s := if s.fastExtensions then s.requests.foldl sendReject s else s
  { s with requests := [] }

/-! ## The peer -/

/-- `Peer::handleRequest`, after the packet is read. -/
def handleRequest (s : UploadPeer) (r : Peer.Request) : UploadPeer :=
  if s.hasUploadSlot then s.addRequest r
  else if s.fastExtensions then s.sendReject r
  else s

/-- `Peer::handleCancel`, after the packet is read. -/
def handleCancel (s : UploadPeer) (r : Peer.Request) : UploadPeer :=
  let s := s.removeRequest r
  { s with sock := s.sock.doNotSendPiece r s.fastExtensions }

/-- `Peer::choke`, with `Peer::sendChoke`. -/
def choke_ (s : UploadPeer) : UploadPeer :=
  if !s.hasUploadSlot then s
  else { s.addPacket (.createType choke) with hasUploadSlot := false }.clearAllRequests

/-- `Peer::sendUnchoke`. -/
def sendUnchoke (s : UploadPeer) : UploadPeer :=
  if s.hasUploadSlot then s
  else { s.addPacket (.createType unchoke) with hasUploadSlot := true }

/-- `Peer::pause`, as far as the uploader is concerned. -/
def pause (s : UploadPeer) : UploadPeer :=
  if s.paused then s else { s.choke_ with paused := true }

/-- `Peer::unpause`. -/
def unpause (s : UploadPeer) : UploadPeer := { s with paused := false }

/-- The longest request there is here. -/
def maxRequestLength : ℕ := 2 ^ 17

/-- A packet that is no answer to a request. -/
def IsOther (p : Packet) : Prop := p.type ≠ piece ∧ p.type ≠ rejectRequest ∧ p.written = 0

/-- What happens to the upload side of a peer that is not killed. -/
inductive UploadEvent where
  | request (r : { r : Peer.Request // r.length.toNat ≤ maxRequestLength })
  | cancel (r : Peer.Request)
  | handleRequests (chunks : UInt32 → Option Peer.Chunk)
  | choke
  | unchoke
  | pause
  | unpause
  /-- Any other packet the peer sends. -/
  | addPacket (packet : { p : Packet // IsOther p })
  | write (connected : Bool) (max : ℕ) (rooms : List ℕ)

/-- The peer does what the event asks for. -/
def handle (s : UploadPeer) : UploadEvent → UploadPeer
  | .request r => s.handleRequest r
  | .cancel r => s.handleCancel r
  | .handleRequests chunks => s.handleRequests chunks
  | .choke => s.choke_
  | .unchoke => s.sendUnchoke
  | .pause => s.pause
  | .unpause => s.unpause
  | .addPacket packet => s.addPacket packet
  | .write connected max rooms => { s with sock := (s.sock.write connected max rooms).1 }

/-- The requests that are received with an event. -/
def UploadEvent.requests : UploadEvent → List Peer.Request
  | .request r => [r]
  | _ => []

/-- The history goes on. -/
def record (s : UploadPeer) (requests : List Peer.Request) : UploadPeer :=
  { s with received := s.received ++ requests }

/-- One event. -/
def step (s : UploadPeer) (e : UploadEvent) : UploadPeer := (s.handle e).record e.requests

end UploadPeer

end KTorrent
