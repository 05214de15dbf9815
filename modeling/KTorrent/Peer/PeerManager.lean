import KTorrent.Lib.FiniteMap
import KTorrent.Lib.Run
import KTorrent.Peer.SuperSeeder

/-!
# The peer manager

The model of what `PeerManager` and `Peer` do when a peer connects, says which
chunks it has, is killed and is swept.

* `handleHave`, `handleHaveAll`, `handleHaveNone`, `handleBitField` — the handlers
  of `Peer`; `have_`, `bitSetReceived` — what they call.
* `createPeer`, `kill`, `visit`, `update` — the life of a peer.
* `PeerEvent`, `step` — the same in single steps, and `update_eq_run`: an update is
  a run of them.
-/

namespace KTorrent

/-- What the counters need to know of a `Peer`. -/
structure Peer where
  pieces : BitSet
  killed : Bool

/-- A packet by which a peer says which chunks it has, of the right length. -/
inductive PeerMessage where
  | have_ (ch : UInt32)
  /-- The bytes after the type. -/
  | bitField (packet : ℕ → UInt8)
  | haveAll
  | haveNone
  /-- Any other packet whose handler kills the peer, as all do for a wrong length. -/
  | invalid

/-- What one `update` does with a peer, as the network has it. -/
structure PeerRound where
  stalled : Bool
  /-- The socket or the reader is not ok. -/
  closed : Bool
  /-- The packets that are waiting. -/
  packets : List PeerMessage

/-- `PeerManager`, started. -/
structure PeerManager where
  /-- `tor.getNumChunks()`. -/
  numChunks : UInt32
  /-- `tor.isLoaded()`. -/
  loaded : Bool
  peerMap : AList fun _ : UInt32 => Peer
  availableChunks : BitSet
  cnt : ChunkCounter
  superseeder : Option (SuperSeeder UInt32)

namespace PeerManager

/-- `PeerManager(tor)`, after `start` with or without a super seeder. -/
def start (numChunks : UInt32) (loaded : Bool) (superseeder : Option (ℕ → UInt32)) : PeerManager :=
  { numChunks := numChunks, loaded := loaded, peerMap := ∅
    availableChunks := .new numChunks, cnt := .new numChunks.toNat
    superseeder := superseeder.map fun random => .new numChunks.toNat random }

/-- The bit set of a peer; the ids of the super seeder are those of peers. -/
def bits (s : PeerManager) (id : UInt32) : BitSet :=
  match s.peerMap.lookup id with
  | none => .new 0
  | some p => p.pieces

/-- `PeerManager::Private::have`. -/
def have_ (s : PeerManager) (id : UInt32) (index : ℕ) : PeerManager :=
  { s with
    availableChunks := s.availableChunks.set index true
    cnt := s.cnt.inc index
    superseeder := s.superseeder.map fun ss => ss.have_ s.bits id index }

/-- The round of `bitSetReceived` for a chunk in the bit set. -/
def received (s : PeerManager) (i : ℕ) : PeerManager :=
  { s with availableChunks := s.availableChunks.set i true, cnt := s.cnt.inc i }

/-- `PeerManager::bitSetReceived`. -/
def bitSetReceived (s : PeerManager) (id : UInt32) (bs : BitSet) : PeerManager :=
  let s := (List.range bs.numBits.toNat).foldl (fun s i => if bs.get i then s.received i else s) s
  { s with superseeder := s.superseeder.map fun ss => ss.bitset s.bits id bs }

/-- `PeerManager::Private::updateAvailableChunks`. -/
def updateAvailableChunks (s : PeerManager) : PeerManager :=
  { s with
    availableChunks := (List.range s.availableChunks.numBits.toNat).foldl
      (fun chunks i => chunks.set i (s.cnt.get i > 0)) s.availableChunks }

/-- A peer of the map is changed. -/
def setPeer (s : PeerManager) (id : UInt32) (p : Peer) : PeerManager :=
  { s with peerMap := s.peerMap.insert id p }

/-- `Peer::kill`. -/
def kill (s : PeerManager) (id : UInt32) : PeerManager :=
  match s.peerMap.lookup id with
  | none => s
  | some p => s.setPeer id { p with killed := true }

/-- `PeerManager::Private::createPeer`.  The ids come from a counter, so the id is not taken. -/
def createPeer (s : PeerManager) (id : UInt32) : PeerManager :=
  if id ∈ s.peerMap then s
  else
    let s := s.setPeer id { pieces := .new s.numChunks, killed := false }
    { s with superseeder := s.superseeder.map fun ss => ss.peerAdded s.bits id }

/-! ## The handlers of a peer -/

/-- `Peer::handleHave`. -/
def handleHave (s : PeerManager) (id : UInt32) (p : Peer) (ch : UInt32) : PeerManager :=
  if ch.toNat < p.pieces.numBits.toNat then
    (s.have_ id ch.toNat).setPeer id { p with pieces := p.pieces.set ch.toNat true }
  else if s.loaded then s.kill id
  else s

/-- `Peer::handleHaveAll`. -/
def handleHaveAll (s : PeerManager) (id : UInt32) (p : Peer) : PeerManager :=
  let pieces := p.pieces.setAll true
  (s.setPeer id { p with pieces := pieces }).bitSetReceived id pieces

/-- `Peer::handleHaveNone`. -/
def handleHaveNone (s : PeerManager) (id : UInt32) (p : Peer) : PeerManager :=
  let pieces := p.pieces.setAll false
  (s.setPeer id { p with pieces := pieces }).bitSetReceived id pieces

/-- `Peer::handleBitField`. -/
def handleBitField (s : PeerManager) (id : UInt32) (p : Peer) (packet : ℕ → UInt8) : PeerManager :=
  let pieces := BitSet.fromData packet p.pieces.numBits
  (s.setPeer id { p with pieces := pieces }).bitSetReceived id pieces

/-- `Peer::handlePacket`. -/
def handlePacket (s : PeerManager) (id : UInt32) (packet : PeerMessage) : PeerManager :=
  match s.peerMap.lookup id with
  | none => s
  | some p =>
    if p.killed then s
    else
      match packet with
      | .have_ ch => s.handleHave id p ch
      | .bitField packet => s.handleBitField id p packet
      | .haveAll => s.handleHaveAll id p
      | .haveNone => s.handleHaveNone id p
      | .invalid => s.kill id

/-! ## The update -/

/-- What `update` does with a killed peer. -/
def sweep (s : PeerManager) (id : UInt32) (p : Peer) : PeerManager :=
  let s := { s with cnt := s.cnt.decBitSet p.pieces }
  let s := s.updateAvailableChunks
  { s with
    superseeder := s.superseeder.map fun ss => ss.peerRemoved s.bits id
    peerMap := s.peerMap.erase id }

/-- The loop of `PeerManager::Private::update` at one peer, but for its `Peer::update`. -/
def visit (s : PeerManager) (id : UInt32) (stalled : Bool) : PeerManager :=
  match s.peerMap.lookup id with
  | none => s
  | some p => if p.killed ∨ stalled then s.sweep id p else s

/-- `Peer::update`. -/
def peerUpdate (s : PeerManager) (id : UInt32) (round : PeerRound) : PeerManager :=
  if round.closed then s.kill id
  else round.packets.foldl (fun s packet => s.handlePacket id packet) s

/-- The ids in the order of the map. -/
def ids (s : PeerManager) : List UInt32 := s.peerMap.keys.insertionSort (· ≤ ·)

/-- `PeerManager::Private::update`. -/
def update (s : PeerManager) (rounds : UInt32 → PeerRound) : PeerManager :=
  s.ids.foldl (fun s id => (s.visit id (rounds id).stalled).peerUpdate id (rounds id)) s

end PeerManager

/-! ## Runs -/

/-- What happens to the peer manager.  The packets of a peer and its visit are steps of their
own. -/
inductive PeerEvent where
  | connect (id : UInt32)
  | packet (id : UInt32) (packet : PeerMessage)
  | kill (id : UInt32)
  | visit (id : UInt32) (stalled : Bool)

namespace PeerManager

open Runs

/-- One event. -/
def step (s : PeerManager) : PeerEvent → PeerManager
  | .connect id => s.createPeer id
  | .packet id packet => s.handlePacket id packet
  | .kill id => s.kill id
  | .visit id stalled => s.visit id stalled

/-- The events of one round of `update`. -/
def roundEvents (id : UInt32) (round : PeerRound) : List PeerEvent :=
  .visit id round.stalled ::
    if round.closed then [.kill id] else round.packets.map (PeerEvent.packet id)

theorem run_roundEvents (s : PeerManager) (id : UInt32) (round : PeerRound) :
    run step s (roundEvents id round) = (s.visit id round.stalled).peerUpdate id round := by
  unfold roundEvents peerUpdate
  rw [run_cons]
  split
  · rfl
  · rw [run, List.foldl_map]
    rfl

/-- **An update is a run of single steps.**  It visits the peers in the order of the map, each
before it reads its packets. -/
theorem update_eq_run (s : PeerManager) (rounds : UInt32 → PeerRound) :
    s.update rounds = run step s (s.ids.flatMap fun id => roundEvents id (rounds id)) := by
  unfold update
  generalize s.ids = ids
  induction ids generalizing s with
  | nil => rfl
  | cons id ids ih => rw [List.foldl_cons, List.flatMap_cons, run_append, run_roundEvents, ih]

end PeerManager

end KTorrent
