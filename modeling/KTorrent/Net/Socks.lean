import KTorrent.Lib.Buffer
import KTorrent.Net.Address

/-!
# Socks

The model of `net/socks.cpp`: the client side of a SOCKS connection.  It sends its
requests and reads the replies from the socket; what it leaves there is the first
that the peer protocol reads.

* `Socks.setup`, `resolved`, `onReadyToWrite` — the connection to the server.
* `Socks.credentials` — the request with the username and the password, written
  into a buffer of fixed size.
* `Socks.onReadyToRead` — the replies.
* `Socks.step` — one event; `none` when a request is written outside its buffer.

The username and the password stand by their local 8-bit encoding.
-/

namespace KTorrent

open Buffer

/-- `Socks::State`. -/
inductive SocksState where
  | idle
  | connectingToServer
  | connectingToHost
  | connected
  | failed
  deriving DecidableEq, Repr

/-- `Socks::SetupState`. -/
inductive SocksSetupState where
  | none
  | authRequestSent
  | usernameAndPasswordSent
  | connectRequestSent
  deriving DecidableEq, Repr

/-- `Socks`, the static members it uses, and its socket. -/
structure Socks where
  version : ℕ
  dest : Address
  socksUsername : List UInt8
  socksPassword : List UInt8
  socksServerAddrResolved : Bool
  state : SocksState
  internalState : SocksSetupState
  /-- What has come on the socket and was not read. -/
  inbox : List UInt8
  /-- What was sent. -/
  sent : List UInt8
  deriving DecidableEq

namespace Socks

/-- The constructor. -/
def new (version : ℕ) (dest : Address) (username password : List UInt8) (resolved : Bool) : Socks where
  version := version
  dest := dest
  socksUsername := username
  socksPassword := password
  socksServerAddrResolved := resolved
  state := .idle
  internalState := .none
  inbox := []
  sent := []

/-! ## The socket -/

/-- `sock->sendData`. -/
def sendData (s : Socks) (data : List UInt8) : Socks := { s with sent := s.sent ++ data }

/-- `sock->readData`: at most `len` bytes. -/
def readData (s : Socks) (len : ℕ) : List UInt8 × Socks :=
  (s.inbox.take len, { s with inbox := s.inbox.drop len })

/-- `sock->bytesAvailable`. -/
def bytesAvailable (s : Socks) : ℕ := s.inbox.length

/-- `state = State::FAILED`. -/
def fail (s : Socks) : Socks := { s with state := .failed }

/-! ## Requests -/

/-- `Socks::sendAuthRequest`. -/
def sendAuthRequest (s : Socks) : Socks :=
  if s.version = 5 then
    let nmethods := if s.socksUsername.length > 0 ∧ s.socksPassword.length > 0 then 2 else 1
    -- no authentication, username and password, GSSAPI, and two bytes that stay zero
    let methods : List UInt8 := [0, 2, 1, 0, 0]
    { s.sendData (5 :: UInt8.ofNat nmethods :: methods.take nmethods) with
      internalState := .authRequestSent }
  else
    match s.dest.host with
    | .ipv6 _ => s.fail
    | .ipv4 ip =>
      { s.sendData ([4, 1] ++ writeUint16 s.dest.portNumber ++ writeUint32 ip ++
          ascii "KTorrent" ++ [0]) with
        internalState := .connectRequestSent }

/-- `Socks::sendConnectRequest`. -/
def sendConnectRequest (s : Socks) : Socks :=
  let addressType : UInt8 := match s.dest.ipVersion with
    | .v4 => 1
    | .v6 => 4
  { s.sendData ([5, 1, 0, addressType] ++ s.dest.writeCompact) with
    internalState := .connectRequestSent }

/-- Store data in a buffer; `none` when it does not fit. -/
def store (buffer : List UInt8) (off : ℕ) (data : List UInt8) : Option (List UInt8) :=
  if off + data.length ≤ buffer.length then some (overwrite buffer off data) else none

/-- The request that `sendUsernamePassword` writes into its buffer. -/
def credentials (user pwd : List UInt8) : Option (List UInt8) := do
  let buffer := List.replicate (3 + 2 * 256) 0
  let buffer ← store buffer 0 [1]
  let buffer ← store buffer 1 [UInt8.ofNat user.length]
  let buffer ← store buffer 2 user
  let buffer ← store buffer (2 + user.length) [UInt8.ofNat pwd.length]
  let buffer ← store buffer (3 + user.length) pwd
  return buffer.take (3 + user.length + pwd.length)

/-- `Socks::sendUsernamePassword`. -/
def sendUsernamePassword (s : Socks) : Option Socks := do
  let request ← credentials s.socksUsername s.socksPassword
  return { s.sendData request with internalState := .usernameAndPasswordSent }

/-! ## Replies -/

/-- `Socks::handleAuthReply`. -/
def handleAuthReply (s : Socks) : Option Socks :=
  match s.readData 2 with
  | ([version, method], s) =>
    if version ≠ 5 ∨ method = 0xff then some s.fail
    else if method = 0 then some s.sendConnectRequest
    else if method = 2 then s.sendUsernamePassword
    else some s
  | (_, s) => some s.fail

/-- `Socks::handleUsernamePasswordReply`. -/
def handleUsernamePasswordReply (s : Socks) : Socks :=
  match s.readData 2 with
  | ([version, status], s) =>
    if version ≠ 1 ∨ status ≠ 0 then s.fail else s.sendConnectRequest
  | (_, s) => s.fail

/-- Read `len` bytes and be connected, if `ba` bytes are available and that is at least
`needed`. -/
def readAddress (s : Socks) (ba needed len : ℕ) : Socks :=
  if ba < needed then s.fail
  else
    let (data, s) := s.readData len
    if data.length ≠ len then s.fail else { s with state := .connected }

/-- `Socks::handleConnectReply`. -/
def handleConnectReply (s : Socks) : Socks :=
  if s.version = 4 then
    match s.readData 8 with
    | ([_, reply, _, _, _, _, _, _], s) =>
      if reply ≠ 0x5a then s.fail else { s with state := .connected }
    | (_, s) => s.fail
  else
    match s.readData 4 with
    | ([version, reply, _, addressType], s) =>
      if version ≠ 5 ∨ reply ≠ 0 then s.fail
      else
        let ba := s.bytesAvailable
        if addressType = 1 then s.readAddress ba 6 6
        else if addressType = 4 then s.readAddress ba 18 6
        else if addressType = 3 then
          if ba = 0 then s.fail
          else
            match s.readData 1 with
            | ([len], s) => s.readAddress s.bytesAvailable len.toNat len.toNat
            | (_, s) => s.fail
        else s.fail
    | (_, s) => s.fail

/-- `Socks::onReadyToRead`. -/
def onReadyToRead (s : Socks) : Option Socks :=
  if s.state = .connected then some s
  else if s.bytesAvailable = 0 then some s.fail
  else
    match s.internalState with
    | .authRequestSent => s.handleAuthReply
    | .usernameAndPasswordSent => some s.handleUsernamePasswordReply
    | .connectRequestSent => some s.handleConnectReply
    | .none => some s

/-! ## The connection to the server -/

/-- `Socks::setup`, where `connectTo` and `connecting` are the answers of the socket. -/
def setup (s : Socks) (connectTo connecting : Bool) : Socks :=
  let s := { s with state := .connectingToServer }
  if !s.socksServerAddrResolved then s
  else if connectTo then sendAuthRequest { s with state := .connectingToHost }
  else if connecting then s
  else s.fail

/-- `Socks::resolved`. -/
def resolved (s : Socks) (succeeded connectTo connecting : Bool) : Socks :=
  if !succeeded then s.fail
  else
    let s := { s with socksServerAddrResolved := true }
    if s.state = .connectingToServer then s.setup connectTo connecting else s

/-- `Socks::onReadyToWrite`. -/
def onReadyToWrite (s : Socks) (connectSuccessful : Bool) : Socks :=
  if connectSuccessful then sendAuthRequest { s with state := .connectingToHost } else s.fail

/-! ## Events -/

/-- What happens to a connection. -/
inductive Event where
  | setup (connectTo connecting : Bool)
  | resolved (succeeded connectTo connecting : Bool)
  | readyToWrite (connectSuccessful : Bool)
  | arrive (data : List UInt8)
  | readyToRead

/-- One event; `none` when a request is written outside its buffer. -/
def step (s : Socks) : Event → Option Socks
  | .setup connectTo connecting => some (s.setup connectTo connecting)
  | .resolved succeeded connectTo connecting => some (s.resolved succeeded connectTo connecting)
  | .readyToWrite connectSuccessful => some (s.onReadyToWrite connectSuccessful)
  | .arrive data => some { s with inbox := s.inbox ++ data }
  | .readyToRead => s.onReadyToRead

/-- The events of a connection, one after the other. -/
def run (s : Socks) (events : List Event) : Option Socks := events.foldlM step s

theorem run_append (s : Socks) (es es' : List Event) :
    s.run (es ++ es') = (s.run es).bind fun s => s.run es' := List.foldlM_append ..

@[simp] theorem run_nil (s : Socks) : s.run [] = some s := rfl

@[simp] theorem run_cons (s : Socks) (e : Event) (es : List Event) :
    s.run (e :: es) = (s.step e).bind fun s => s.run es := List.foldlM_cons

end Socks
end KTorrent
