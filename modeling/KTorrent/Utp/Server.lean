import Mathlib.Logic.Function.Basic
import KTorrent.Utp.ConnectionSteps

/-!
# The server and the sockets

The model of `utp/utpserver.cpp`, as far as it passes packets to connections, and
of `UTPSocket::recv`.  A server keeps its connections in a table with the receive
id as key; packets are looked up by the id in their header, and a packet that
opens a connection by that id plus one.
-/

namespace KTorrent
namespace Utp

/-- The two ends of the connection. -/
inductive Side where
  | initiator
  | acceptor
  deriving DecidableEq, Repr

/-- The other end. -/
def Side.other : Side → Side
  | .initiator => .acceptor
  | .acceptor => .initiator

/-- `UTPSocket::recv` of a socket that does not block.  The result is the bytes that
are returned, `some none` for `0` and `none` for `-1`. -/
def Connection.socketRecv (c : Connection) (maxLen : ℕ) :
    Option (Option (Option (List UInt8)) × Connection) :=
  if c.state = .closed then some (some none, c)
  else if c.localWnd.bytesAvailable = 0 then some (none, c)
  else
    match c.recv maxLen with
    | none => none
    | some (none, c) => some (none, c)
    | some (some data, c) => some (some (some data), c)

/-- What a server does to a connection with a packet that carries its id; a connection is
opened by the first SYN, and a later one is not passed to it. -/
def Connection.arrival (c : Connection) (k : Clock) (p : Packet) : Option Connection :=
  match p.type with
  | .stData => c.handlePacket k p
  | .stFin => c.handlePacket k p
  | .stState => c.handlePacket k p
  | .stReset => some c.reset
  | .stSyn => if c.state = .idle then c.handlePacket k p else some c

/-- `UTPServer`: the table of its connections, and everything that was sent. -/
structure Server where
  connections : UInt16 → Option Connection
  sent : List Packet

namespace Server

/-- A server without connections. -/
def empty : Server := { connections := fun _ => none, sent := [] }

/-- A connection after a call; what it has sent is on its way. -/
def store (s : Server) (c : Connection) : Server :=
  { connections := Function.update s.connections c.recvConnectionId (some { c with sent := [] })
    sent := s.sent ++ c.sent }

/-- `connections.remove`. -/
def remove (s : Server) (id : UInt16) : Server :=
  { s with connections := Function.update s.connections id none }

/-- `UTPServer::connectTo`, with the id that the random generator has found. -/
def connectTo (s : Server) (recvConnId : UInt16) : Server := s.store (.connecting recvConnId)

/-- `UTPServer::Private::syn`. -/
def syn (s : Server) (k : Clock) (p : Packet) : Option Server :=
  let recvConnId := p.connectionId + 1
  if (s.connections recvConnId).isSome then
    some { s with sent := s.sent ++ (Connection.incoming recvConnId).sendReset.sent }
  else ((Connection.incoming recvConnId).handlePacket k p).map s.store

/-- `UTPServer::Private::reset`. -/
def reset (s : Server) (p : Packet) : Server :=
  match s.connections p.connectionId with
  | none => s
  | some c => s.store c.reset

/-- A packet for a connection of the table; a connection that it closes is removed. -/
def pass (s : Server) (k : Clock) (p : Packet) : Option Server :=
  match s.connections p.connectionId with
  | none => some s
  | some c =>
    (c.handlePacket k p).map fun c' =>
      if c'.state = .closed then (s.store c').remove c'.recvConnectionId else s.store c'

/-- `UTPServer::handlePacket`. -/
def handlePacket (s : Server) (k : Clock) (p : Packet) : Option Server :=
  match p.type with
  | .stData => s.pass k p
  | .stFin => s.pass k p
  | .stState => s.pass k p
  | .stReset => some (s.reset p)
  | .stSyn => s.syn k p

/-- `UTPServer::cleanup`. -/
def cleanup (s : Server) : Server :=
  { s with connections := fun id => (s.connections id).filter fun c => c.state != .closed }

/-- A call of a connection of the table. -/
def call (s : Server) (id : UInt16) (f : Connection → Option Connection) : Option Server :=
  match s.connections id with
  | none => some s
  | some c => (f c).map s.store

/-! ## The table -/

variable {s : Server} {id : UInt16} {c c₁ : Connection}

theorem connections_store (h : (s.store c).connections id = some c₁) :
    c₁ = { c with sent := [] } ∨ s.connections id = some c₁ := by
  have h' : Function.update s.connections c.recvConnectionId (some { c with sent := [] }) id = some c₁ := h
  rw [Function.update_apply] at h'
  split at h'
  · exact .inl (Option.some.inj h').symm
  · exact .inr h'

theorem connections_remove {id' : UInt16} (h : (s.remove id').connections id = some c) :
    s.connections id = some c := by
  have h' : Function.update s.connections id' none id = some c := h
  rw [Function.update_apply] at h'
  split at h'
  · cases h'
  · exact h'

end Server
end Utp
end KTorrent
