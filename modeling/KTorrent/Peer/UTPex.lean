import KTorrent.Bcodec.BEncoder
import KTorrent.Net.Address
import Std.Data.TreeMap.Lemmas

/-!
# Peer exchange

The model of the sending side of `UTPex`, which tells a peer of the others: at
every update which of them are new and which are gone.

* `PexMaps` — the four maps of one IP version; `UTPex` has them twice.
* `PexMessage` — what an update sends, with its bytes.
* `visit`, `encodePeers`, `update` — as the source computes them.
-/

namespace KTorrent

/-- A `std::map` by peer ids. -/
abbrev PexMap (β : Type) := Std.TreeMap UInt32 β

/-- What `visit` asks of a peer. -/
structure PexPeer where
  id : UInt32
  address : Address
  isSeeder : Bool
  fastExtensions : Bool

/-- The byte for a peer: `0x02` for a seeder, `0x01` for the fast extensions. -/
def pexFlag (isSeeder fastExtensions : Bool) : UInt8 :=
  let flag : UInt8 := if isSeeder then 0x02 else 0
  if fastExtensions then flag ||| 0x01 else flag

/-- The maps of one IP version: `peers4`, `added4`, `flags4` and `npeers4`, or those for 6. -/
structure PexMaps where
  peers : PexMap Address
  added : PexMap Address
  flags : PexMap UInt8
  npeers : PexMap Address

/-- The part of a message for one IP version: its maps when it is encoded. -/
structure PexPart where
  dropped : PexMap Address
  added : PexMap Address
  flags : PexMap UInt8

namespace PexMaps

/-- Maps without entries. -/
def empty : PexMaps := ⟨∅, ∅, ∅, ∅⟩

/-- `UTPex::visit` of a peer, on the maps of its version; `peer` is the id of the peer of the
extension. -/
def visit (m : PexMaps) (peer : UInt32) (p : PexPeer) : PexMaps :=
  if p.id ≠ peer then
    let m := { m with npeers := m.npeers.insertIfNew p.id p.address }
    if p.id ∉ m.peers then
      { m with
        added := m.added.insertIfNew p.id p.address
        flags := m.flags.insertIfNew p.id (pexFlag p.isSeeder p.fastExtensions) }
    else { m with peers := m.peers.erase p.id }
  else m

/-- The part of the message, after the visits: what is left of the old peers was dropped. -/
def part (m : PexMaps) : PexPart := ⟨m.peers, m.added, m.flags⟩

/-- The last lines of `UTPex::update`. -/
def moveOn (m : PexMaps) : PexMaps := ⟨m.npeers, ∅, ∅, ∅⟩

end PexMaps

namespace PexPart

/-- The buffer that `UTPex::encode` fills: addresses of another version are skipped. -/
def compact (ps : PexMap Address) (v : IpVersion) : List UInt8 :=
  (ps.toList.filter fun e => e.2.ipVersion = v).flatMap fun e => e.2.writeCompact

/-- The buffer that `UTPex::encodeFlags` fills. -/
def flagBytes (flags : PexMap UInt8) : List UInt8 := flags.toList.map (·.2)

/-- The key of a version: it ends in a 6 for IPv6. -/
def key (v : IpVersion) (key4 key6 : String) : List UInt8 :=
  match v with
  | .v4 => ascii key4
  | .v6 => ascii key6

/-- `UTPex::encodePeers`. -/
def encodePeers (part : PexPart) (v : IpVersion) (enc : BEncoder) : BEncoder :=
  let enc :=
    if part.added.isEmpty then enc
    else
      (((enc.writeBytes (key v "added" "added6")).writeBytes (compact part.added v)).writeBytes
        (key v "added.f" "added6.f")).writeBytes (flagBytes part.flags)
  if part.dropped.isEmpty then enc
  else (enc.writeBytes (key v "dropped" "dropped6")).writeBytes (compact part.dropped v)

end PexPart

/-- A message: its parts for the two versions. -/
structure PexMessage where
  part4 : PexPart
  part6 : PexPart

namespace PexMessage

/-- The part for a version. -/
def part (msg : PexMessage) : IpVersion → PexPart
  | .v4 => msg.part4
  | .v6 => msg.part6

/-- The bytes of the message. -/
def data (msg : PexMessage) : List UInt8 :=
  ((msg.part6.encodePeers .v6) ((msg.part4.encodePeers .v4) (BEncoder.mk []).beginDict)).end_.out

end PexMessage

/-- `UTPex`, with the id of the peer it is for. -/
structure UTPex where
  peer : UInt32
  maps4 : PexMaps
  maps6 : PexMaps

namespace UTPex

/-- `UTPex(peer)`. -/
def new (peer : UInt32) : UTPex := ⟨peer, .empty, .empty⟩

/-- The maps of a version. -/
def maps (ext : UTPex) : IpVersion → PexMaps
  | .v4 => ext.maps4
  | .v6 => ext.maps6

/-- `UTPex::visit`. -/
def visit (ext : UTPex) (p : PexPeer) : UTPex :=
  match p.address.ipVersion with
  | .v4 => { ext with maps4 := ext.maps4.visit ext.peer p }
  | .v6 => { ext with maps6 := ext.maps6.visit ext.peer p }

/-- `PeerManager::visit`: all peers, in the order of their ids. -/
def visitAll (ext : UTPex) (peers : List PexPeer) : UTPex := peers.foldl visit ext

/-- The first half of `UTPex::update`: the bytes that are sent, if some are. -/
def message (ext : UTPex) (peers : List PexPeer) : Option (List UInt8) :=
  let ext := ext.visitAll peers
  let data := PexMessage.data ⟨ext.maps4.part, ext.maps6.part⟩
  -- no peers: the result is just "de"
  if 2 < data.length then some data else none

/-- `UTPex::update`: what is kept for the next one. -/
def update (ext : UTPex) (peers : List PexPeer) : UTPex :=
  let ext := ext.visitAll peers
  { ext with maps4 := ext.maps4.moveOn, maps6 := ext.maps6.moveOn }

end UTPex

end KTorrent
