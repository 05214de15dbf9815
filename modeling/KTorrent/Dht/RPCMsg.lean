import KTorrent.Bcodec.BDecoder
import KTorrent.Bcodec.BEncoder
import KTorrent.Dht.Key
import KTorrent.Net.Address

/-!
# The messages of the DHT

The model of the message classes of `dht` and of `rpcmsgfactory.cpp`.  A message is a
bencoded dictionary with a transaction id, a type, and the arguments of a request or
of a response.

* The eight kinds of messages, each with its `encode` and `parse`.
* `RPCMsgFactory.build` — a message from a dictionary; a response has the method that the
  resolver has for its transaction id.
* `dataReceived` — a message from the data of a packet.
-/

namespace KTorrent

/-! ## The encoder -/

/-- `beginDict`, what is in the dictionary, and `end`. -/
def BEncoder.dict (e : BEncoder) (body : BEncoder → BEncoder) : BEncoder := (body e.beginDict).end_

/-- `write` of a key and a byte string. -/
def BEncoder.writeEntry (e : BEncoder) (key : String) (data : List UInt8) : BEncoder :=
  (e.writeBytes (ascii key)).writeBytes data

/-! ## Messages -/

/-- `dht::Method`. -/
inductive Method where
  | none
  | ping
  | findNode
  | getPeers
  | announcePeer
  deriving DecidableEq, Repr

/-- The fields of `RPCMsg`. -/
structure RPCMsg where
  mtid : List UInt8
  id : Key

/-- `PingReq`. -/
structure PingReq extends RPCMsg

/-- `PingRsp`. -/
structure PingRsp extends RPCMsg

/-- `FindNodeReq`. -/
structure FindNodeReq extends RPCMsg where
  target : Key
  want : List (List UInt8)

/-- `FindNodeRsp`, with the fields of `PackedNodeContainer`. -/
structure FindNodeRsp extends RPCMsg where
  nodes : List UInt8
  nodes6 : List UInt8

/-- `GetPeersReq`. -/
structure GetPeersReq extends RPCMsg where
  infoHash : Key
  want : List (List UInt8)

/-- `DBItem`, without its time stamp. -/
structure DBItem where
  addr : Address
  deriving DecidableEq

/-- `GetPeersRsp`, with the fields of `PackedNodeContainer`. -/
structure GetPeersRsp extends RPCMsg where
  token : List UInt8
  nodes : List UInt8
  nodes6 : List UInt8
  items : List DBItem

/-- `AnnounceReq`. -/
structure AnnounceReq extends GetPeersReq where
  port : UInt16
  token : List UInt8

/-- `AnnounceRsp`. -/
structure AnnounceRsp extends RPCMsg

/-- `ErrMsg`. -/
structure ErrMsg extends RPCMsg where
  msg : List UInt8

/-- A message of one of the kinds. -/
inductive Message where
  | pingReq (m : PingReq)
  | pingRsp (m : PingRsp)
  | findNodeReq (m : FindNodeReq)
  | findNodeRsp (m : FindNodeRsp)
  | getPeersReq (m : GetPeersReq)
  | getPeersRsp (m : GetPeersRsp)
  | announceReq (m : AnnounceReq)
  | announceRsp (m : AnnounceRsp)
  | errMsg (m : ErrMsg)

/-- `MAX_TOKEN_SIZE`. -/
def maxTokenSize : ℕ := 40

/-! ## Encoding -/

/-- The dictionary of a request with these arguments. -/
def encodeRequest (mtid : List UInt8) (method : String) (args : BEncoder → BEncoder) : List UInt8 :=
  ((⟨[]⟩ : BEncoder).dict fun e =>
    ((((e.writeBytes (ascii "a")).dict args).writeEntry "q" (ascii method)).writeEntry "t"
      mtid).writeEntry "y" (ascii "q")).out

/-- The dictionary of a response with these arguments. -/
def encodeResponse (mtid : List UInt8) (args : BEncoder → BEncoder) : List UInt8 :=
  ((⟨[]⟩ : BEncoder).dict fun e =>
    (((e.writeBytes (ascii "r")).dict args).writeEntry "t" mtid).writeEntry "y" (ascii "r")).out

/-- `PingReq::encode`. -/
def PingReq.encode (m : PingReq) : List UInt8 :=
  encodeRequest m.mtid "ping" fun e => e.writeEntry "id" m.id.1

/-- `PingRsp::encode`. -/
def PingRsp.encode (m : PingRsp) : List UInt8 :=
  encodeResponse m.mtid fun e => e.writeEntry "id" m.id.1

/-- `FindNodeReq::encode`. -/
def FindNodeReq.encode (m : FindNodeReq) : List UInt8 :=
  encodeRequest m.mtid "find_node" fun e =>
    (e.writeEntry "id" m.id.1).writeEntry "target" m.target.1

/-- `if (nodes.size() > 0)` and the same for `nodes6`. -/
def BEncoder.writeNodes (e : BEncoder) (key : String) (nodes : List UInt8) : BEncoder :=
  if nodes.length > 0 then e.writeEntry key nodes else e

/-- `FindNodeRsp::encode`. -/
def FindNodeRsp.encode (m : FindNodeRsp) : List UInt8 :=
  encodeResponse m.mtid fun e =>
    ((e.writeEntry "id" m.id.1).writeNodes "nodes" m.nodes).writeNodes "nodes6" m.nodes6

/-- `GetPeersReq::encode`. -/
def GetPeersReq.encode (m : GetPeersReq) : List UInt8 :=
  encodeRequest m.mtid "get_peers" fun e =>
    (e.writeEntry "id" m.id.1).writeEntry "info_hash" m.infoHash.1

/-- `DBItem::pack`. -/
def DBItem.pack (i : DBItem) : List UInt8 := i.addr.writeCompact

/-- The list of `GetPeersRsp::encode`. -/
def BEncoder.writeValues (e : BEncoder) (items : List DBItem) : BEncoder :=
  if items.length > 0 then
    (items.foldl (fun e i => e.writeBytes i.pack) (e.writeBytes (ascii "values")).beginList).end_
  else e

/-- `GetPeersRsp::encode`. -/
def GetPeersRsp.encode (m : GetPeersRsp) : List UInt8 :=
  encodeResponse m.mtid fun e =>
    ((((e.writeEntry "id" m.id.1).writeNodes "nodes" m.nodes).writeNodes "nodes6"
      m.nodes6).writeEntry "token" m.token).writeValues m.items

/-- `AnnounceReq::encode`. -/
def AnnounceReq.encode (m : AnnounceReq) : List UInt8 :=
  encodeRequest m.mtid "announce_peer" fun e =>
    ((((e.writeEntry "id" m.id.1).writeEntry "info_hash" m.infoHash.1).writeBytes
      (ascii "port")).writeUint64 m.port.toNat).writeEntry "token" m.token

/-- `AnnounceRsp::encode`. -/
def AnnounceRsp.encode (m : AnnounceRsp) : List UInt8 :=
  encodeResponse m.mtid fun e => e.writeEntry "id" m.id.1

/-- `RPCMsg::encode`.  The one of `ErrMsg` writes nothing. -/
def Message.encode : Message → List UInt8
  | .pingReq m => m.encode
  | .pingRsp m => m.encode
  | .findNodeReq m => m.encode
  | .findNodeRsp m => m.encode
  | .getPeersReq m => m.encode
  | .getPeersRsp m => m.encode
  | .announceReq m => m.encode
  | .announceRsp m => m.encode
  | .errMsg _ => []

/-! ## Parsing -/

/-- What parsing throws. -/
inductive RPCMsgError where
  | node (e : NodeError)
  /-- "Invalid DHT transaction ID" -/
  | invalidTransactionId
  /-- "Unknown message type %1" -/
  | unknownMessageType (t : List UInt8)
  /-- "Invalid request, arguments missing" -/
  | requestArgumentsMissing
  /-- "Invalid request type %1" -/
  | invalidRequestType (str : List UInt8)
  /-- "Invalid response, arguments missing" -/
  | responseArgumentsMissing
  /-- "Arguments missing for DHT response" -/
  | argumentsMissing
  /-- "Empty transaction ID in DHT response" -/
  | emptyTransactionId
  /-- "Unknown DHT rpc call (transaction id = %1)" -/
  | unknownCall (mtid : List UInt8)
  /-- "Missing nodes or nodes6 parameter" -/
  | nodesMissing
  /-- "Invalid error message" -/
  | invalidErrorMessage
  deriving DecidableEq, Repr

/-- A result of a getter. -/
def orThrow {α : Type} (r : Except NodeError α) : Except RPCMsgError α := r.mapError .node

/-- A dictionary without which parsing ends. -/
def dictOrThrow (d : Option BDictNode) (e : RPCMsgError) : Except RPCMsgError BDictNode :=
  match d with
  | some args => .ok args
  | none => .error e

/-- `Key()`. -/
def Key.null : Key := Key.ofBytes []

/-- `RPCMsg::parse`. -/
def RPCMsg.parse (dict : BDictNode) : Except RPCMsgError RPCMsg := do
  let mtid ← orThrow (dict.getByteArrayView (ascii "t"))
  if mtid.isEmpty then throw .invalidTransactionId
  let t ← orThrow (dict.getByteArrayView (ascii "y"))
  if t = ascii "q" then
    match dict.getDict (ascii "a") with
    | none => return ⟨mtid, Key.null⟩
    | some args => return ⟨mtid, Key.ofBytes (← orThrow (args.getByteArrayView (ascii "id")))⟩
  else if t = ascii "r" then
    match dict.getDict (ascii "r") with
    | none => return ⟨mtid, Key.null⟩
    | some args => return ⟨mtid, Key.ofBytes (← orThrow (args.getByteArrayView (ascii "id")))⟩
  else if t = ascii "e" then return ⟨mtid, Key.null⟩
  else throw (.unknownMessageType t)

/-- The loop over the children of `want`. -/
def parseWant (args : BDictNode) : Except RPCMsgError (List (List UInt8)) :=
  match args.getList (ascii "want") with
  | none => .ok []
  | some ln => ln.mapM fun node => orThrow node.getByteArrayView

/-- `FindNodeReq::parse`. -/
def FindNodeReq.parse (dict : BDictNode) : Except RPCMsgError FindNodeReq := do
  let msg ← RPCMsg.parse dict
  let args ← dictOrThrow (dict.getDict (ascii "a")) .requestArgumentsMissing
  let target ← orThrow (args.getByteArrayView (ascii "target"))
  let want ← parseWant args
  return { msg with target := Key.ofBytes target, want }

/-- `Value::toByteArray`. -/
def Value.toByteArray : Value → List UInt8
  | .string strval => strval
  | _ => []

/-- The bytes of `nodes` or of `nodes6`, when there are any. -/
def parseNodes (args : BDictNode) (key : String) : List UInt8 :=
  match args.getValue (ascii key) with
  | some v => v.toByteArray
  | none => []

/-- `FindNodeRsp::parse`. -/
def FindNodeRsp.parse (dict : BDictNode) : Except RPCMsgError FindNodeRsp := do
  let msg ← RPCMsg.parse dict
  let args ← dictOrThrow (dict.getDict (ascii "r")) .responseArgumentsMissing
  if (args.getValue (ascii "nodes")).isNone && (args.getList (ascii "nodes6")).isNone then
    throw .nodesMissing
  return { msg with nodes := parseNodes args "nodes", nodes6 := parseNodes args "nodes6" }

/-- `GetPeersReq::parse`. -/
def GetPeersReq.parse (dict : BDictNode) : Except RPCMsgError GetPeersReq := do
  let msg ← RPCMsg.parse dict
  let args ← dictOrThrow (dict.getDict (ascii "a")) .requestArgumentsMissing
  let infoHash ← orThrow (args.getByteArrayView (ascii "info_hash"))
  let want ← parseWant args
  return { msg with infoHash := Key.ofBytes infoHash, want }

/-- The loop over the children of `values`.  A child of another length is passed over. -/
def parseValues : List BNode → Except RPCMsgError (List DBItem)
  | [] => .ok []
  | node :: nodes => do
    let d ← orThrow node.getByteArrayView
    let addr :=
      if d.length = 6 then Address.fromCompactIPv4 d
      else if d.length = 18 then Address.fromCompactIPv6 d
      else none
    let items ← parseValues nodes
    return (addr.map DBItem.mk).toList ++ items

/-- `GetPeersRsp::parse`. -/
def GetPeersRsp.parse (dict : BDictNode) : Except RPCMsgError GetPeersRsp := do
  let msg ← RPCMsg.parse dict
  let args ← dictOrThrow (dict.getDict (ascii "r")) .responseArgumentsMissing
  let token ← orThrow (args.getByteArrayView (ascii "token"))
  let items ← parseValues ((args.getList (ascii "values")).getD [])
  let token := token.take maxTokenSize
  if (args.getValue (ascii "nodes")).isSome || (args.getList (ascii "nodes6")).isSome then
    return { msg with
      token, items, nodes := parseNodes args "nodes", nodes6 := parseNodes args "nodes6" }
  return { msg with token, items, nodes := [], nodes6 := [] }

/-- `AnnounceReq::parse`. -/
def AnnounceReq.parse (dict : BDictNode) : Except RPCMsgError AnnounceReq := do
  let req ← GetPeersReq.parse dict
  let args ← dictOrThrow (dict.getDict (ascii "a")) .requestArgumentsMissing
  let infoHash ← orThrow (args.getByteArrayView (ascii "info_hash"))
  let port ← orThrow (args.getInt (ascii "port"))
  let token ← orThrow (args.getByteArrayView (ascii "token"))
  return { req with
    infoHash := Key.ofBytes infoHash, port := UInt16.ofInt port, token := token.take maxTokenSize }

/-- `AnnounceRsp::parse`. -/
def AnnounceRsp.parse (dict : BDictNode) : Except RPCMsgError AnnounceRsp := do
  let msg ← RPCMsg.parse dict
  let _ ← dictOrThrow (dict.getDict (ascii "r")) .responseArgumentsMissing
  return { msg with }

/-- `ErrMsg::parse`. -/
def ErrMsg.parse (dict : BDictNode) : Except RPCMsgError ErrMsg := do
  let msg ← RPCMsg.parse dict
  match dict.getList (ascii "e") with
  | none => throw .invalidErrorMessage
  | some ln =>
    let text ← orThrow (Value.stringOrThrow .childNotFound (ln[1]?.bind BNode.asValue))
    return { msg with msg := text }

/-! ## The factory -/

namespace RPCMsgFactory

/-- `buildRequest`; nothing for a vote. -/
def buildRequest (dict : BDictNode) : Except RPCMsgError (Option Message) := do
  let _ ← dictOrThrow (dict.getDict (ascii "a")) .requestArgumentsMissing
  let str ← orThrow (dict.getByteArrayView (ascii "q"))
  if str = ascii "ping" then return some (.pingReq { ← RPCMsg.parse dict with })
  else if str = ascii "find_node" then return some (.findNodeReq (← FindNodeReq.parse dict))
  else if str = ascii "get_peers" then return some (.getPeersReq (← GetPeersReq.parse dict))
  else if str = ascii "announce_peer" then return some (.announceReq (← AnnounceReq.parse dict))
  else if str = ascii "vote" then return none
  else throw (.invalidRequestType str)

/-- `buildResponse`, with the `findMethod` of the resolver. -/
def buildResponse (dict : BDictNode) (findMethod : List UInt8 → Method) :
    Except RPCMsgError (Option Message) := do
  let _ ← dictOrThrow (dict.getDict (ascii "r")) .argumentsMissing
  let mtid ← orThrow (dict.getByteArrayView (ascii "t"))
  if mtid.isEmpty then throw .emptyTransactionId
  match findMethod mtid with
  | .ping => return some (.pingRsp { ← RPCMsg.parse dict with })
  | .findNode => return some (.findNodeRsp (← FindNodeRsp.parse dict))
  | .getPeers => return some (.getPeersRsp (← GetPeersRsp.parse dict))
  | .announcePeer => return some (.announceRsp (← AnnounceRsp.parse dict))
  | .none => throw (.unknownCall mtid)

/-- `RPCMsgFactory::build`. -/
def build (dict : BDictNode) (findMethod : List UInt8 → Method) :
    Except RPCMsgError (Option Message) := do
  let t ← orThrow (dict.getByteArrayView (ascii "y"))
  if t = ascii "q" then buildRequest dict
  else if t = ascii "r" then buildResponse dict findMethod
  else if t = ascii "e" then return some (.errMsg (← ErrMsg.parse dict))
  else throw (.unknownMessageType t)

end RPCMsgFactory

/-- The message in the data of a packet, by `RPCServer::Private::dataReceived`; nothing when the
data are no dictionary or no message comes of it. -/
def messageOf (findMethod : List UInt8 → Method) (data : List UInt8) : Option Message :=
  match BDecoder.decode data data.length 0 with
  | .ok (some (.dict dict _), _) =>
    match RPCMsgFactory.build dict findMethod with
    | .ok msg => msg
    | .error _ => none
  | _ => none

end KTorrent
