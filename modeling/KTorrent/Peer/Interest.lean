import KTorrent.Peer.PeerManager

/-!
# Who is told that we are interested

What `PeerManager` and `Peer` do about interest, on top of the peer manager that keeps the chunks
of the peers: a peer is told when it gets a wanted chunk, pausing withdraws it, and a changed set of
wanted chunks takes effect at the next update.

* `InterestManager` — `wanted_chunks`, `wanted_changed`, `paused`, and of every peer
  `am_interested` and its own `paused`.
* `have_`, `bitSetReceived`, `handlePacket`, `update`, `pause`, `unpause`, `setWantedChunks` — the
  places where interest is evaluated.
* `InterestEvent`, `step` — what happens to a started manager.
-/

namespace KTorrent

/-- What a `Peer` keeps about interest: `stats.am_interested` and `paused`. -/
structure InterestFlags where
  am_interested : Bool
  paused : Bool

/-- `PeerManager`, started, with what it keeps about interest. -/
structure InterestManager where
  manager : PeerManager
  flags : UInt32 → InterestFlags
  wanted_chunks : BitSet
  wanted_changed : Bool
  paused : Bool

/-- `Peer::hasWantedChunks`. -/
def Peer.hasWantedChunks (p : Peer) (wanted_chunks : BitSet) : Bool :=
  0 < (p.pieces.andBitSet wanted_chunks).numOn

namespace InterestManager

/-- `PeerManager(tor)`, started. -/
def start (numChunks : UInt32) (loaded : Bool) (superseeder : Option (ℕ → UInt32)) :
    InterestManager where
  manager := .start numChunks loaded superseeder
  flags := fun _ => ⟨false, false⟩
  wanted_chunks := (BitSet.new numChunks).setAll true
  wanted_changed := false
  paused := false

/-- What a peer keeps is changed. -/
def setFlags (s : InterestManager) (id : UInt32) (f : InterestFlags) : InterestManager :=
  { s with flags := Function.update s.flags id f }

/-- `Peer::sendInterested`. -/
def sendInterested (s : InterestManager) (id : UInt32) : InterestManager :=
  if (s.flags id).am_interested then s else s.setFlags id { s.flags id with am_interested := true }

/-- `Peer::sendNotInterested`. -/
def sendNotInterested (s : InterestManager) (id : UInt32) : InterestManager :=
  if (s.flags id).am_interested then s.setFlags id { s.flags id with am_interested := false } else s

/-- `PeerManager::Private::createPeer`.  `interested` says whether the one who is told of the new
peer calls `sendInterested`, as `TorrentControl` does while there is something to download. -/
def createPeer (s : InterestManager) (id : UInt32) (interested : Bool) : InterestManager :=
  if id ∈ s.manager.peerMap then s
  else
    let s := { s with manager := s.manager.createPeer id }
    let s := s.setFlags id ⟨false, false⟩
    if interested then s.sendInterested id else s

/-- `PeerManager::Private::have`, as far as interest goes. -/
def have_ (s : InterestManager) (id : UInt32) (index : ℕ) : InterestManager :=
  if s.wanted_chunks.get index && !s.paused then s.sendInterested id else s

/-- `PeerManager::bitSetReceived`, as far as interest goes. -/
def bitSetReceived (s : InterestManager) (id : UInt32) (bs : BitSet) : InterestManager :=
  let interested := (List.range bs.numBits.toNat).any fun i => bs.get i && s.wanted_chunks.get i
  if interested && !s.paused then s.sendInterested id else s

/-- `Peer::handlePacket`. -/
def handlePacket (s : InterestManager) (id : UInt32) (packet : PeerMessage) : InterestManager :=
  match s.manager.peerMap.lookup id with
  | none => s
  | some p =>
    if p.killed then s
    else
      let s := { s with manager := s.manager.handlePacket id packet }
      match packet with
      | .have_ ch => if ch.toNat < p.pieces.numBits.toNat then s.have_ id ch.toNat else s
      | .bitField packet => s.bitSetReceived id (.fromData packet p.pieces.numBits)
      | .haveAll => s.bitSetReceived id (p.pieces.setAll true)
      | .haveNone => s.bitSetReceived id (p.pieces.setAll false)
      | .invalid => s

/-- `Peer::kill`. -/
def kill (s : InterestManager) (id : UInt32) : InterestManager :=
  { s with manager := s.manager.kill id }

/-- `Peer::update`. -/
def peerUpdate (s : InterestManager) (id : UInt32) (round : PeerRound) : InterestManager :=
  if round.closed then s.kill id
  else round.packets.foldl (fun s packet => s.handlePacket id packet) s

/-- What `update` does about interest after the `Peer::update` of a peer. -/
def reconsider (s : InterestManager) (id : UInt32) : InterestManager :=
  match s.manager.peerMap.lookup id with
  | none => s
  | some p =>
    if s.wanted_changed then
      if p.hasWantedChunks s.wanted_chunks then s.sendInterested id else s.sendNotInterested id
    else s

/-- The loop of `PeerManager::Private::update` at one peer. -/
def visitPeer (s : InterestManager) (id : UInt32) (round : PeerRound) : InterestManager :=
  let s := { s with manager := s.manager.visit id round.stalled }
  if id ∈ s.manager.peerMap then (s.peerUpdate id round).reconsider id else s

/-- `PeerManager::Private::update`. -/
def update (s : InterestManager) (rounds : UInt32 → PeerRound) : InterestManager :=
  let s := s.manager.ids.foldl (fun s id => s.visitPeer id (rounds id)) s
  { s with wanted_changed := false }

/-- `PeerManager::setWantedChunks`. -/
def setWantedChunks (s : InterestManager) (bs : BitSet) : InterestManager :=
  { s with wanted_chunks := bs, wanted_changed := true }

/-- `Peer::pause`, as far as interest goes. -/
def pausePeer (s : InterestManager) (id : UInt32) : InterestManager :=
  if (s.flags id).paused then s
  else
    let s := s.sendNotInterested id
    s.setFlags id { s.flags id with paused := true }

/-- `PeerManager::pause`. -/
def pause (s : InterestManager) : InterestManager :=
  if s.paused then s
  else { s.manager.ids.foldl pausePeer s with paused := true }

/-- What `unpause` does with a peer. -/
def unpausePeer (s : InterestManager) (id : UInt32) : InterestManager :=
  let s := s.setFlags id { s.flags id with paused := false }
  match s.manager.peerMap.lookup id with
  | none => s
  | some p => if p.hasWantedChunks s.wanted_chunks then s.sendInterested id else s

/-- `PeerManager::unpause`. -/
def unpause (s : InterestManager) : InterestManager :=
  if s.paused then { s.manager.ids.foldl unpausePeer s with paused := false } else s

/-- What happens to a started manager. -/
inductive InterestEvent where
  | connect (id : UInt32) (interested : Bool)
  | packet (id : UInt32) (packet : PeerMessage)
  | kill (id : UInt32)
  | update (rounds : UInt32 → PeerRound)
  | setWantedChunks (bs : BitSet)
  | pause
  | unpause

/-- One event. -/
def step (s : InterestManager) : InterestEvent → InterestManager
  | .connect id interested => s.createPeer id interested
  | .packet id packet => s.handlePacket id packet
  | .kill id => s.kill id
  | .update rounds => s.update rounds
  | .setWantedChunks bs => s.setWantedChunks bs
  | .pause => s.pause
  | .unpause => s.unpause

end InterestManager

end KTorrent
