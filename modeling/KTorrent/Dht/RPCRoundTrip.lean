import KTorrent.Bcodec.Narrow
import KTorrent.Dht.RPCMsg

/-!
# Messages are read back

* `encodeRequest_eq`, `encodeResponse_eq` — the dictionaries as trees.
* `IsRequest`, `IsResponse` — what the decoded dictionary has, and what is built from it.
* `roundTrips_iff` — a message is read back exactly when its nodes are found: a response
  to `find_node` has `nodes`, and one to `get_peers` has `nodes` or no `nodes6`.
-/

namespace KTorrent

open BTree

/-! ## The trees -/

theorem idKey_short : (ascii "id").length < 2 ^ 31 := by decide

/-- The entries of a request. -/
def requestEntries (mtid : BString) (method : BString) (args : List (BString × BTree)) :
    List (BString × BTree) :=
  [(bkey "a", .dict args), (bkey "q", .string method), (bkey "t", .string mtid),
    (bkey "y", .string (bkey "q"))]

/-- The entries of a response. -/
def responseEntries (mtid : BString) (args : List (BString × BTree)) : List (BString × BTree) :=
  [(bkey "r", .dict args), (bkey "t", .string mtid), (bkey "y", .string (bkey "r"))]

section Trees

variable {args : BEncoder → BEncoder} {es : List (BString × BTree)}

theorem encodeRequest_eq {mtid : BString} {method : String} {h : (ascii method).length < 2 ^ 31}
    (hargs : ∀ e, args e = writeEntries es e) :
    encodeRequest mtid.1 method args = (BTree.dict (requestEntries mtid ⟨ascii method, h⟩ es)).emitted := by
  rw [encodeRequest, funext hargs]
  rfl

theorem encodeResponse_eq {mtid : BString} (hargs : ∀ e, args e = writeEntries es e) :
    encodeResponse mtid.1 args = (BTree.dict (responseEntries mtid es)).emitted := by
  rw [encodeResponse, funext hargs]
  rfl

theorem writeEntries_append (es es' : List (BString × BTree)) (e : BEncoder) :
    writeEntries (es ++ es') e = writeEntries es' (writeEntries es e) := by
  induction es generalizing e with
  | nil => rfl
  | cons x es ih =>
    obtain ⟨key, t⟩ := x
    exact ih _

/-- The entry of nodes, which is there when there are some. -/
def nodesEntry (key : BString) (nodes : BString) : List (BString × BTree) :=
  if nodes.1.length > 0 then [(key, .string nodes)] else []

theorem writeNodes_eq {key : String} {h : (ascii key).length < 2 ^ 31} (nodes : BString)
    (e : BEncoder) : e.writeNodes key nodes.1 = writeEntries (nodesEntry ⟨ascii key, h⟩ nodes) e := by
  rw [BEncoder.writeNodes, nodesEntry]
  split <;> rfl

/-- The entry of the values, which is there when there are some. -/
def valuesEntry (items : List DBItem) : List (BString × BTree) :=
  if items.length > 0 then
    [(bkey "values", .list (items.map fun i => .string i.addr.bytes))]
  else []

theorem writeItems_values (items : List DBItem) (e : BEncoder) :
    writeItems (items.map fun i => .string i.addr.bytes) e =
      items.foldl (fun e i => e.writeBytes i.pack) e := by
  induction items generalizing e with
  | nil => rfl
  | cons i items ih => exact ih _

theorem writeValues_eq (items : List DBItem) (e : BEncoder) :
    e.writeValues items = writeEntries (valuesEntry items) e := by
  rw [BEncoder.writeValues, valuesEntry]
  split
  · rw [← writeItems_values]
    rfl
  · rfl

end Trees

/-! ## What is found in the dictionary -/

section Parsing

variable {dict args : BDictNode} {mtid : List UInt8} {method : List UInt8} {id : Key}
  {findMethod : List UInt8 → Method}

/-- The dictionary is the one of a request. -/
structure IsRequest (dict args : BDictNode) (mtid method : List UInt8) (id : Key) : Prop where
  nonempty : mtid ≠ []
  type : dict.getByteArrayView (ascii "y") = .ok (ascii "q")
  methodAt : dict.getByteArrayView (ascii "q") = .ok method
  mtidAt : dict.getByteArrayView (ascii "t") = .ok mtid
  argsAt : dict.getDict (ascii "a") = some args
  idAt : args.getByteArrayView (ascii "id") = .ok id.1

/-- The dictionary is the one of a response. -/
structure IsResponse (dict args : BDictNode) (mtid : List UInt8) (id : Key) : Prop where
  nonempty : mtid ≠ []
  type : dict.getByteArrayView (ascii "y") = .ok (ascii "r")
  mtidAt : dict.getByteArrayView (ascii "t") = .ok mtid
  argsAt : dict.getDict (ascii "r") = some args
  idAt : args.getByteArrayView (ascii "id") = .ok id.1

theorem orThrow_ok {α : Type} {r : Except NodeError α} {a : α} (h : r = .ok a) :
    orThrow r = .ok a := by
  rw [h]
  rfl

theorem IsRequest.parse (h : IsRequest dict args mtid method id) :
    RPCMsg.parse dict = .ok ⟨mtid, id⟩ := by
  have hne : mtid.isEmpty = false := by simpa using h.nonempty
  rw [RPCMsg.parse, orThrow_ok h.mtidAt]
  simp only [bind, Except.bind, hne, orThrow_ok h.type, h.argsAt, orThrow_ok h.idAt, Key.ofBytes_hash,
    if_true, pure, Except.pure, Bool.false_eq_true, if_false]

theorem IsResponse.parse (h : IsResponse dict args mtid id) :
    RPCMsg.parse dict = .ok ⟨mtid, id⟩ := by
  have hne : mtid.isEmpty = false := by simpa using h.nonempty
  have htype : ascii "r" ≠ ascii "q" := by decide
  rw [RPCMsg.parse, orThrow_ok h.mtidAt]
  simp only [bind, Except.bind, hne, orThrow_ok h.type, h.argsAt, orThrow_ok h.idAt, Key.ofBytes_hash,
    if_neg htype, if_true, pure, Except.pure, Bool.false_eq_true, if_false]

theorem IsRequest.build (h : IsRequest dict args mtid method id) :
    RPCMsgFactory.build dict findMethod = RPCMsgFactory.buildRequest dict := by
  rw [RPCMsgFactory.build, orThrow_ok h.type]
  rfl

theorem IsResponse.build (h : IsResponse dict args mtid id) :
    RPCMsgFactory.build dict findMethod = RPCMsgFactory.buildResponse dict findMethod := by
  rw [RPCMsgFactory.build, orThrow_ok h.type]
  rfl

/-! ### Entries -/

variable {es : List (BString × BTree)} {key : List UInt8}

theorem lookup_append (es es' : List (BString × BTree)) (key : List UInt8) :
    lookup (es ++ es') key = (lookup es key).or (lookup es' key) := by
  rw [lookup, List.find?_append, Option.map_or]
  rfl

theorem lookup_nodesEntry (key : BString) (nodes : BString) :
    lookup (nodesEntry key nodes) key.1 = if nodes.1.length > 0 then some (.string nodes) else none := by
  rw [nodesEntry]
  split
  · rw [lookup, List.find?_cons_of_pos (by simp)]
    rfl
  · rfl

theorem lookup_nodesEntry_ne {key : BString} {key' : List UInt8} (nodes : BString)
    (h : (key.1 == key') = false) : lookup (nodesEntry key nodes) key' = none := by
  rw [nodesEntry]
  split
  · rw [lookup, List.find?_cons_of_neg (by simp [h])]
    rfl
  · rfl

theorem getList_none (h : EqualsEntries es args) (hkey : lookup es key = none) :
    args.getList key = none := by
  rw [BDictNode.getList, h.getData_none key hkey]
  rfl

/-- A string is no list. -/
theorem getList_string {s : BString} (h : EqualsEntries es args)
    (hkey : lookup es key = some (.string s)) : args.getList key = none := by
  have hget := h.getData key
  rw [hkey] at hget
  obtain ⟨node, hnode, hequals⟩ := hget
  rw [BDictNode.getList, hnode]
  match node, hequals with
  | .value (.string _) _, _ => rfl

theorem getValue_string {s : BString} (h : EqualsEntries es args)
    (hkey : lookup es key = some (.string s)) : args.getValue key = some (.string s.1) := by
  have hget := h.getData key
  rw [hkey] at hget
  obtain ⟨node, hnode, hequals⟩ := hget
  rw [BDictNode.getValue, hnode]
  cases node with
  | value v _ =>
    cases v with
    | string strval => exact congrArg (fun s => some (Value.string s)) hequals
    | int _ => cases hequals
    | int64 _ => cases hequals
  | list _ _ => cases hequals
  | dict _ _ => cases hequals

/-- Nodes that were written when there are some. -/
theorem parseNodes_eq {nodes : BString} {name : String} (h : EqualsEntries es args)
    (hkey : lookup es (ascii name) = if nodes.1.length > 0 then some (.string nodes) else none) :
    parseNodes args name = nodes.1 ∧
      (args.getValue (ascii name)).isSome = decide (nodes.1.length > 0) ∧
      args.getList (ascii name) = none := by
  by_cases hlen : nodes.1.length > 0
  · rw [if_pos hlen] at hkey
    have hvalue := getValue_string h hkey
    rw [parseNodes, hvalue, getList_string h hkey]
    exact ⟨rfl, (decide_eq_true hlen).symm, rfl⟩
  · rw [if_neg hlen] at hkey
    have hnone : args.getValue (ascii name) = none := by
      rw [BDictNode.getValue, h.getData_none _ hkey]
      rfl
    rw [parseNodes, hnone, getList_none h hkey]
    exact ⟨(List.length_eq_zero_iff.mp (by omega)).symm, (decide_eq_false hlen).symm, rfl⟩

/-- A request is recognised. -/
theorem isRequest_of {mtid method : BString} (hne : mtid.1 ≠ [])
    (h : EqualsEntries (requestEntries mtid method es) dict)
    (hid : lookup es (ascii "id") = some (.string id.bytes)) :
    ∃ args, IsRequest dict args mtid.1 method.1 id ∧ EqualsEntries es args := by
  obtain ⟨args, hargs, hes⟩ := h.getDict (ascii "a") rfl
  exact ⟨args, ⟨hne, h.getByteArrayView (ascii "y") (s := bkey "q") rfl,
    h.getByteArrayView (ascii "q") (s := method) rfl,
    h.getByteArrayView (ascii "t") (s := mtid) rfl, hargs, hes.getByteArrayView (ascii "id") hid⟩, hes⟩

/-- A response is recognised. -/
theorem isResponse_of {mtid : BString} (hne : mtid.1 ≠ [])
    (h : EqualsEntries (responseEntries mtid es) dict)
    (hid : lookup es (ascii "id") = some (.string id.bytes)) :
    ∃ args, IsResponse dict args mtid.1 id ∧ EqualsEntries es args := by
  obtain ⟨args, hargs, hes⟩ := h.getDict (ascii "r") rfl
  exact ⟨args, ⟨hne, h.getByteArrayView (ascii "y") (s := bkey "r") rfl,
    h.getByteArrayView (ascii "t") (s := mtid) rfl, hargs, hes.getByteArrayView (ascii "id") hid⟩, hes⟩

/-! ### Requests -/

theorem parseWant_none (h : args.getList (ascii "want") = none) : parseWant args = .ok [] := by
  rw [parseWant, h]

theorem IsRequest.findNodeReq {target : Key} (h : IsRequest dict args mtid method id)
    (htarget : args.getByteArrayView (ascii "target") = .ok target.1)
    (hwant : args.getList (ascii "want") = none) :
    FindNodeReq.parse dict = .ok ⟨⟨mtid, id⟩, target, []⟩ := by
  simp only [FindNodeReq.parse, h.parse, h.argsAt, dictOrThrow, orThrow_ok htarget,
    parseWant_none hwant, bind, Except.bind, pure, Except.pure, Key.ofBytes_hash]

theorem IsRequest.getPeersReq {infoHash : Key} (h : IsRequest dict args mtid method id)
    (hhash : args.getByteArrayView (ascii "info_hash") = .ok infoHash.1)
    (hwant : args.getList (ascii "want") = none) :
    GetPeersReq.parse dict = .ok ⟨⟨mtid, id⟩, infoHash, []⟩ := by
  simp only [GetPeersReq.parse, h.parse, h.argsAt, dictOrThrow, orThrow_ok hhash,
    parseWant_none hwant, bind, Except.bind, pure, Except.pure, Key.ofBytes_hash]

theorem IsRequest.announceReq {infoHash : Key} {port : UInt16} {token : List UInt8}
    (h : IsRequest dict args mtid method id)
    (hhash : args.getByteArrayView (ascii "info_hash") = .ok infoHash.1)
    (hwant : args.getList (ascii "want") = none)
    (hport : args.getInt (ascii "port") = .ok (port.toNat : ℤ))
    (htoken : args.getByteArrayView (ascii "token") = .ok token)
    (hsize : token.length ≤ maxTokenSize) :
    AnnounceReq.parse dict = .ok ⟨⟨⟨mtid, id⟩, infoHash, []⟩, port, token⟩ := by
  have hword : UInt16.ofInt (port.toNat : ℤ) = port := by
    have hmod : ((port.toNat : ℤ) % 2 ^ 16).toNat = port.toNat := by
      have hlt := port.toNat_lt
      omega
    rw [UInt16.ofInt, hmod, UInt16.ofNat_toNat]
  simp only [AnnounceReq.parse, h.getPeersReq hhash hwant, h.argsAt, dictOrThrow, orThrow_ok hhash,
    orThrow_ok hport, orThrow_ok htoken, bind, Except.bind, pure, Except.pure, Key.ofBytes_hash,
    hword, List.take_of_length_le hsize]

/-! ### Responses -/

/-- **A response to `find_node` is parsed exactly when `nodes` was written.** -/
theorem IsResponse.findNodeRsp (nodes nodes6 : BString) (h : IsResponse dict args mtid id)
    (hes : EqualsEntries es args)
    (hnodes : lookup es (ascii "nodes") =
      if nodes.1.length > 0 then some (.string nodes) else none)
    (hnodes6 : lookup es (ascii "nodes6") =
      if nodes6.1.length > 0 then some (.string nodes6) else none) :
    FindNodeRsp.parse dict =
      if nodes.1 = [] then .error .nodesMissing else .ok ⟨⟨mtid, id⟩, nodes.1, nodes6.1⟩ := by
  obtain ⟨hparse, hsome, -⟩ := parseNodes_eq hes hnodes
  obtain ⟨hparse6, -, hlist⟩ := parseNodes_eq hes hnodes6
  have hnone : (args.getValue (ascii "nodes")).isNone = !decide (nodes.1.length > 0) := by
    rw [← Option.not_isSome, hsome]
  rw [FindNodeRsp.parse, h.parse]
  simp only [h.argsAt, dictOrThrow, bind, Except.bind, pure, Except.pure, hparse, hparse6, hlist,
    Option.isNone_none, Bool.and_true, hnone, throw, throwThe, MonadExceptOf.throw]
  by_cases hempty : nodes.1 = []
  · rw [if_pos hempty, if_pos (by simp [hempty])]
  · rw [if_neg hempty, if_neg (by simpa using hempty)]

theorem parseValues_eq : ∀ (items : List DBItem) (children : List BNode),
    EqualsItems (items.map fun i => .string i.addr.bytes) children →
    parseValues children = .ok items := by
  intro items
  induction items with
  | nil =>
    intro children h
    match children, h with
    | [], _ => rfl
  | cons i items ih =>
    intro children h
    match children, h with
    | .value (.string strval) bytes :: children, ⟨hi, hitems⟩ =>
      have hval : strval = i.addr.writeCompact := hi
      have hread := i.addr.fromCompact_writeCompact
      have hlen := i.addr.writeCompact_length
      simp only [parseValues, BNode.getByteArrayView, BNode.asValue, Value.stringOrThrow, orThrow,
        Except.mapError, ih children hitems, bind, Except.bind, pure, Except.pure, hval]
      -- the length says which of the two readers it is
      cases hv : i.addr.ipVersion with
      | v4 =>
        rw [hv] at hread hlen
        change _ = 6 at hlen
        rw [if_pos hlen, show Address.fromCompactIPv4 _ = some i.addr from hread]
        rfl
      | v6 =>
        rw [hv] at hread hlen
        change _ = 18 at hlen
        rw [if_neg (by rw [hlen]; decide), if_pos hlen,
          show Address.fromCompactIPv6 _ = some i.addr from hread]
        rfl

/-- **A response to `get_peers` loses `nodes6` when `nodes` was not written.** -/
theorem IsResponse.getPeersRsp (nodes nodes6 : BString) {token : List UInt8} {items : List DBItem}
    (h : IsResponse dict args mtid id) (hes : EqualsEntries es args)
    (hnodes : lookup es (ascii "nodes") =
      if nodes.1.length > 0 then some (.string nodes) else none)
    (hnodes6 : lookup es (ascii "nodes6") =
      if nodes6.1.length > 0 then some (.string nodes6) else none)
    (htoken : args.getByteArrayView (ascii "token") = .ok token)
    (hsize : token.length ≤ maxTokenSize)
    (hvalues : parseValues ((args.getList (ascii "values")).getD []) = .ok items) :
    GetPeersRsp.parse dict =
      .ok ⟨⟨mtid, id⟩, token, nodes.1, if nodes.1 = [] then [] else nodes6.1, items⟩ := by
  obtain ⟨hparse, hsome, -⟩ := parseNodes_eq hes hnodes
  obtain ⟨hparse6, -, hlist⟩ := parseNodes_eq hes hnodes6
  rw [GetPeersRsp.parse, h.parse]
  simp only [h.argsAt, dictOrThrow, bind, Except.bind, pure, Except.pure, hparse, hparse6, hlist,
    Option.isSome_none, Bool.or_false, hsome, orThrow_ok htoken, hvalues,
    List.take_of_length_le hsize]
  by_cases hempty : nodes.1 = []
  · rw [if_pos hempty, if_neg (by simp [hempty]), hempty]
  · rw [if_neg hempty, if_pos (by simpa [List.length_pos_iff] using hempty)]

end Parsing

/-! ## Round trips -/

namespace Message

/-- The fields of the base class. -/
def base : Message → RPCMsg
  | .pingReq m => m.toRPCMsg
  | .pingRsp m => m.toRPCMsg
  | .findNodeReq m => m.toRPCMsg
  | .findNodeRsp m => m.toRPCMsg
  | .getPeersReq m => m.toRPCMsg
  | .getPeersRsp m => m.toRPCMsg
  | .announceReq m => m.toRPCMsg
  | .announceRsp m => m.toRPCMsg
  | .errMsg m => m.toRPCMsg

/-- The method of the request, or of the request that is answered. -/
def method : Message → Method
  | .pingReq _ => .ping
  | .pingRsp _ => .ping
  | .findNodeReq _ => .findNode
  | .findNodeRsp _ => .findNode
  | .getPeersReq _ => .getPeers
  | .getPeersRsp _ => .getPeers
  | .announceReq _ => .announcePeer
  | .announceRsp _ => .announcePeer
  | .errMsg _ => .none

/-- The token, when there is one. -/
def token : Message → List UInt8
  | .getPeersRsp m => m.token
  | .announceReq m => m.token
  | _ => []

/-- The byte strings of any length. -/
def strings : Message → List (List UInt8)
  | .findNodeRsp m => [m.mtid, m.nodes, m.nodes6]
  | .getPeersRsp m => [m.mtid, m.nodes, m.nodes6]
  | m => [m.base.mtid]

/-- The message as it is sent: `encode` writes no `want`. -/
def sent : Message → Message
  | .findNodeReq m => .findNodeReq { m with want := [] }
  | .getPeersReq m => .getPeersReq { m with want := [] }
  | .announceReq m => .announceReq { m with want := [] }
  | m => m

/-- The sizes that the decoder can handle; a packet is much smaller. -/
structure Fits (m : Message) : Prop where
  strings : ∀ s ∈ m.strings, s.length < 2 ^ 31
  size : m.encode.length < 2 ^ 32

/-- The nodes of a response are found. -/
def NodesFound : Message → Prop
  | .findNodeRsp m => m.nodes ≠ []
  | .getPeersRsp m => m.nodes ≠ [] ∨ m.nodes6 = []
  | _ => True

/-- The message that comes of the data is the one that was sent. -/
def RoundTrips (findMethod : List UInt8 → Method) (m : Message) : Prop :=
  messageOf findMethod m.encode = some m.sent

variable {findMethod : List UInt8 → Method}

/-- The dictionary that is decoded holds what was written. -/
theorem messageOf_emitted (findMethod : List UInt8 → Method) {es : List (BString × BTree)}
    (h : (BTree.dict es).emitted.length < 2 ^ 32) :
    ∃ dict, EqualsEntries es dict ∧ (∀ e ∈ dict, e.2.Narrow) ∧
      messageOf findMethod (BTree.dict es).emitted =
        match RPCMsgFactory.build dict findMethod with
        | .ok msg => msg
        | .error _ => none := by
  obtain ⟨node, hnode, hdec⟩ := decode_emitted (.dict es) h
  match node, hnode with
  | .dict children bytes, hes =>
    have hnarrow := BDecoder.decode_narrow _ _ _ _ hdec
    cases hnarrow with
    | dict _ _ hchildren =>
      refine ⟨children, hes, hchildren, ?_⟩
      cases hbuild : RPCMsgFactory.build children findMethod with
      | ok msg => simp [messageOf, hdec, hbuild]
      | error e => simp [messageOf, hdec, hbuild]

/-- What is built from the dictionary of a request is what comes of its data. -/
theorem messageOf_request (findMethod : List UInt8 → Method) (mtid : BString) (name : String)
    (hname : (ascii name).length < 2 ^ 31) (es : List (BString × BTree)) {args : BEncoder → BEncoder}
    {id : Key}
    (hargs : ∀ e, args e = writeEntries es e) (hne : mtid.1 ≠ [])
    (hsize : (encodeRequest mtid.1 name args).length < 2 ^ 32)
    (hid : lookup es (ascii "id") = some (.string id.bytes)) :
    ∃ dict d, IsRequest dict d mtid.1 (ascii name) id ∧ EqualsEntries es d ∧
      (∀ e ∈ d, e.2.Narrow) ∧
      messageOf findMethod (encodeRequest mtid.1 name args) =
        match RPCMsgFactory.buildRequest dict with
        | .ok msg => msg
        | .error _ => none := by
  rw [encodeRequest_eq (h := hname) hargs] at hsize ⊢
  obtain ⟨dict, hdict, hnarrow, hmsg⟩ := messageOf_emitted findMethod hsize
  obtain ⟨d, hreq, hes⟩ := isRequest_of hne hdict hid
  refine ⟨dict, d, hreq, hes, ?_, by rw [hmsg, hreq.build]⟩
  obtain ⟨node, hnode, hd⟩ := Option.bind_eq_some_iff.mp hreq.argsAt
  have hchild := narrow_of_getData (ascii "a") hnarrow hnode
  cases hchild with
  | dict children bytes hchildren =>
    obtain rfl : children = d := Option.some.inj hd
    exact hchildren
  | value => cases hd
  | list => cases hd

theorem messageOf_response (findMethod : List UInt8 → Method) (mtid : BString)
    (es : List (BString × BTree)) {args : BEncoder → BEncoder} {id : Key}
    (hargs : ∀ e, args e = writeEntries es e) (hne : mtid.1 ≠ [])
    (hsize : (encodeResponse mtid.1 args).length < 2 ^ 32)
    (hid : lookup es (ascii "id") = some (.string id.bytes)) :
    ∃ dict d, IsResponse dict d mtid.1 id ∧ EqualsEntries es d ∧
      messageOf findMethod (encodeResponse mtid.1 args) =
        match RPCMsgFactory.buildResponse dict findMethod with
        | .ok msg => msg
        | .error _ => none := by
  rw [encodeResponse_eq hargs] at hsize ⊢
  obtain ⟨dict, hdict, -, hmsg⟩ := messageOf_emitted findMethod hsize
  obtain ⟨d, hrsp, hes⟩ := isResponse_of hne hdict hid
  exact ⟨dict, d, hrsp, hes, by rw [hmsg, hrsp.build]⟩

/-! ### Each kind -/

section Kinds

theorem roundTrips_pingReq {m : PingReq} (hne : m.mtid ≠ []) (hfits : Fits (.pingReq m)) :
    RoundTrips findMethod (.pingReq m) := by
  have hmtid := hfits.strings m.mtid List.mem_cons_self
  obtain ⟨dict, d, hreq, -, -, hmsg⟩ := messageOf_request findMethod
    ⟨m.mtid, hmtid⟩ "ping" (by decide)
    ([(bkey "id", .string m.id.bytes)]) (fun _ => rfl) hne hfits.size rfl
  refine hmsg.trans ?_
  simp only [RPCMsgFactory.buildRequest, hreq.argsAt, dictOrThrow, orThrow_ok hreq.methodAt,
    hreq.parse, bind, Except.bind, pure, Except.pure, if_true]
  rfl

theorem roundTrips_pingRsp {m : PingRsp} (hne : m.mtid ≠ []) (hfits : Fits (.pingRsp m))
    (hfind : findMethod m.mtid = .ping) : RoundTrips findMethod (.pingRsp m) := by
  have hmtid := hfits.strings m.mtid List.mem_cons_self
  obtain ⟨dict, d, hrsp, -, hmsg⟩ := messageOf_response findMethod
    ⟨m.mtid, hmtid⟩ ([(bkey "id", .string m.id.bytes)]) (fun _ => rfl) hne
    hfits.size rfl
  have hempty : m.mtid.isEmpty = false := by simpa using hne
  refine hmsg.trans ?_
  simp only [RPCMsgFactory.buildResponse, hrsp.argsAt, dictOrThrow, orThrow_ok hrsp.mtidAt,
    hrsp.parse, bind, Except.bind, pure, Except.pure, hempty, hfind, Bool.false_eq_true, if_false]
  rfl

theorem roundTrips_announceRsp {m : AnnounceRsp} (hne : m.mtid ≠ []) (hfits : Fits (.announceRsp m))
    (hfind : findMethod m.mtid = .announcePeer) : RoundTrips findMethod (.announceRsp m) := by
  have hmtid := hfits.strings m.mtid List.mem_cons_self
  obtain ⟨dict, d, hrsp, -, hmsg⟩ := messageOf_response findMethod
    ⟨m.mtid, hmtid⟩ ([(bkey "id", .string m.id.bytes)]) (fun _ => rfl) hne
    hfits.size rfl
  have hempty : m.mtid.isEmpty = false := by simpa using hne
  refine hmsg.trans ?_
  simp only [RPCMsgFactory.buildResponse, AnnounceRsp.parse, hrsp.argsAt, dictOrThrow,
    orThrow_ok hrsp.mtidAt, hrsp.parse, bind, Except.bind, pure, Except.pure, hempty, hfind,
    Bool.false_eq_true, if_false]
  rfl

theorem roundTrips_findNodeReq {m : FindNodeReq} (hne : m.mtid ≠ [])
    (hfits : Fits (.findNodeReq m)) : RoundTrips findMethod (.findNodeReq m) := by
  have hmtid := hfits.strings m.mtid List.mem_cons_self
  obtain ⟨dict, d, hreq, hes, -, hmsg⟩ := messageOf_request findMethod
    ⟨m.mtid, hmtid⟩ "find_node" (by decide)
    ([(bkey "id", .string m.id.bytes), (bkey "target", .string m.target.bytes)])
    (fun _ => rfl) hne hfits.size rfl
  have htarget := hes.getByteArrayView (ascii "target") (s := m.target.bytes) rfl
  have hparse := hreq.findNodeReq htarget (getList_none hes rfl)
  have hping : ascii "find_node" ≠ ascii "ping" := by decide
  refine hmsg.trans ?_
  simp only [RPCMsgFactory.buildRequest, hreq.argsAt, dictOrThrow, orThrow_ok hreq.methodAt,
    hparse, bind, Except.bind, pure, Except.pure, if_neg hping, if_true]
  rfl

theorem roundTrips_getPeersReq {m : GetPeersReq} (hne : m.mtid ≠ [])
    (hfits : Fits (.getPeersReq m)) : RoundTrips findMethod (.getPeersReq m) := by
  have hmtid := hfits.strings m.mtid List.mem_cons_self
  obtain ⟨dict, d, hreq, hes, -, hmsg⟩ := messageOf_request findMethod
    ⟨m.mtid, hmtid⟩ "get_peers" (by decide)
    ([(bkey "id", .string m.id.bytes), (bkey "info_hash", .string m.infoHash.bytes)])
    (fun _ => rfl) hne hfits.size rfl
  have hhash := hes.getByteArrayView (ascii "info_hash") (s := m.infoHash.bytes) rfl
  have hparse := hreq.getPeersReq hhash (getList_none hes rfl)
  have hping : ascii "get_peers" ≠ ascii "ping" := by decide
  have hfind : ascii "get_peers" ≠ ascii "find_node" := by decide
  refine hmsg.trans ?_
  simp only [RPCMsgFactory.buildRequest, hreq.argsAt, dictOrThrow, orThrow_ok hreq.methodAt,
    hparse, bind, Except.bind, pure, Except.pure, if_neg hping, if_neg hfind, if_true]
  rfl

theorem roundTrips_announceReq {m : AnnounceReq} (hne : m.mtid ≠ [])
    (htoken : m.token.length ≤ maxTokenSize) (hfits : Fits (.announceReq m)) :
    RoundTrips findMethod (.announceReq m) := by
  have hmtid := hfits.strings m.mtid List.mem_cons_self
  have hlen : m.token.length < 2 ^ 31 := htoken.trans_lt (by decide)
  have hport : m.port.toNat < 2 ^ 63 := m.port.toNat_lt.trans (by norm_num)
  obtain ⟨dict, d, hreq, hes, hnarrow, hmsg⟩ := messageOf_request findMethod
    ⟨m.mtid, hmtid⟩ "announce_peer" (by decide)
    ([(bkey "id", .string m.id.bytes), (bkey "info_hash", .string m.infoHash.bytes),
      (bkey "port", .int ⟨m.port.toNat, hport⟩), (bkey "token", .string ⟨m.token, hlen⟩)])
    (fun _ => rfl) hne hfits.size rfl
  have hhash := hes.getByteArrayView (ascii "info_hash") (s := m.infoHash.bytes) rfl
  have hgetPort := hes.getInt (ascii "port") (n := ⟨m.port.toNat, hport⟩) hnarrow
    (m.port.toNat_lt.trans (by norm_num)) rfl
  have hgetToken := hes.getByteArrayView (ascii "token") (s := ⟨m.token, hlen⟩) rfl
  have hparse := hreq.announceReq hhash (getList_none hes rfl) hgetPort hgetToken htoken
  have hping : ascii "announce_peer" ≠ ascii "ping" := by decide
  have hfind : ascii "announce_peer" ≠ ascii "find_node" := by decide
  have hpeers : ascii "announce_peer" ≠ ascii "get_peers" := by decide
  refine hmsg.trans ?_
  simp only [RPCMsgFactory.buildRequest, hreq.argsAt, dictOrThrow, orThrow_ok hreq.methodAt,
    hparse, bind, Except.bind, pure, Except.pure, if_neg hping, if_neg hfind, if_neg hpeers, if_true]
  rfl

/-- The entries of a response that has nodes. -/
def nodeEntries (id : Key) (nodes nodes6 : BString) (rest : List (BString × BTree)) :
    List (BString × BTree) :=
  [(bkey "id" idKey_short, .string id.bytes)] ++
    (nodesEntry (bkey "nodes") nodes ++ (nodesEntry (bkey "nodes6") nodes6 ++ rest))

section NodeEntries

variable {id : Key} {nodes nodes6 : BString} {rest : List (BString × BTree)}

theorem writeEntries_nodeEntries (e : BEncoder) :
    writeEntries (nodeEntries id nodes nodes6 rest) e = writeEntries rest
      (((e.writeEntry "id" id.1).writeNodes "nodes" nodes.1).writeNodes "nodes6" nodes6.1) := by
  rw [writeNodes_eq (h := by decide) nodes6, writeNodes_eq (h := by decide) nodes, nodeEntries,
    writeEntries_append, writeEntries_append, writeEntries_append]
  rfl

theorem lookup_nodeEntries {key : List UInt8} (hid : (ascii "id" == key) = false)
    (hnodes : (ascii "nodes" == key) = false) (hnodes6 : (ascii "nodes6" == key) = false) :
    lookup (nodeEntries id nodes nodes6 rest) key = lookup rest key := by
  have hfirst : lookup [(bkey "id", .string id.bytes)] key = none := by
    rw [lookup, List.find?_cons_of_neg (by rw [show (bkey "id").1 = ascii "id" from rfl, hid]; simp)]
    rfl
  rw [nodeEntries, lookup_append, hfirst, lookup_append, lookup_nodesEntry_ne nodes hnodes,
    lookup_append, lookup_nodesEntry_ne nodes6 hnodes6]
  rfl

theorem lookup_nodeEntries_nodes (hrest : lookup rest (ascii "nodes") = none) :
    lookup (nodeEntries id nodes nodes6 rest) (ascii "nodes") =
      if nodes.1.length > 0 then some (.string nodes) else none := by
  have hnodes : lookup (nodesEntry (bkey "nodes") nodes) (ascii "nodes") = _ :=
    lookup_nodesEntry (bkey "nodes") nodes
  rw [nodeEntries, lookup_append, lookup_append, hnodes, lookup_append,
    lookup_nodesEntry_ne nodes6 (by decide), hrest, show lookup _ _ = none from rfl]
  split <;> rfl

theorem lookup_nodeEntries_nodes6 (hrest : lookup rest (ascii "nodes6") = none) :
    lookup (nodeEntries id nodes nodes6 rest) (ascii "nodes6") =
      if nodes6.1.length > 0 then some (.string nodes6) else none := by
  have hnodes6 : lookup (nodesEntry (bkey "nodes6") nodes6) (ascii "nodes6") = _ :=
    lookup_nodesEntry (bkey "nodes6") nodes6
  rw [nodeEntries, lookup_append, lookup_append, lookup_nodesEntry_ne nodes (by decide),
    lookup_append, hnodes6, hrest, show lookup _ _ = none from rfl]
  split <;> rfl

end NodeEntries

theorem roundTrips_findNodeRsp {m : FindNodeRsp} (hne : m.mtid ≠ []) (hfits : Fits (.findNodeRsp m))
    (hfind : findMethod m.mtid = .findNode) :
    RoundTrips findMethod (.findNodeRsp m) ↔ m.nodes ≠ [] := by
  have hmtid := hfits.strings m.mtid (by simp [strings])
  have hnodes := hfits.strings m.nodes (by simp [strings])
  have hnodes6 := hfits.strings m.nodes6 (by simp [strings])
  obtain ⟨dict, d, hrsp, hes, hmsg⟩ := messageOf_response findMethod ⟨m.mtid, hmtid⟩
    (nodeEntries m.id ⟨m.nodes, hnodes⟩ ⟨m.nodes6, hnodes6⟩ [])
    (fun e => (writeEntries_nodeEntries e).symm) hne hfits.size rfl
  have hparse := hrsp.findNodeRsp ⟨m.nodes, hnodes⟩ ⟨m.nodes6, hnodes6⟩ hes
    (lookup_nodeEntries_nodes rfl) (lookup_nodeEntries_nodes6 rfl)
  have hempty : m.mtid.isEmpty = false := by simpa using hne
  rw [RoundTrips, show messageOf findMethod (Message.findNodeRsp m).encode = _ from hmsg]
  simp only [RPCMsgFactory.buildResponse, hrsp.argsAt, dictOrThrow, orThrow_ok hrsp.mtidAt,
    hparse, bind, Except.bind, pure, Except.pure, hempty, hfind, Bool.false_eq_true, if_false]
  by_cases hnil : m.nodes = []
  · rw [if_pos hnil]
    exact ⟨fun h => (nomatch h), fun h => absurd hnil h⟩
  · rw [if_neg hnil]
    exact ⟨fun _ => hnil, fun _ => rfl⟩

/-- The values are found, also when there are none. -/
theorem parseValues_getList {es : List (BString × BTree)} {args : BDictNode} {items : List DBItem}
    (hes : EqualsEntries es args)
    (hkey : lookup es (ascii "values") = lookup (valuesEntry items) (ascii "values")) :
    parseValues ((args.getList (ascii "values")).getD []) = .ok items := by
  by_cases hitems : items.length > 0
  · have hlist : lookup (valuesEntry items) (ascii "values") =
        some (.list (items.map fun i => .string i.addr.bytes)) := by
      rw [valuesEntry, if_pos hitems]
      rfl
    obtain ⟨children, hchildren, hequals⟩ := hes.getList (ascii "values") (hkey.trans hlist)
    rw [hchildren]
    exact parseValues_eq items children hequals
  · obtain rfl : items = [] := List.length_eq_zero_iff.mp (by omega)
    rw [getList_none hes (hkey.trans rfl)]
    rfl

theorem roundTrips_getPeersRsp {m : GetPeersRsp} (hne : m.mtid ≠ [])
    (htoken : m.token.length ≤ maxTokenSize) (hfits : Fits (.getPeersRsp m))
    (hfind : findMethod m.mtid = .getPeers) :
    RoundTrips findMethod (.getPeersRsp m) ↔ m.nodes ≠ [] ∨ m.nodes6 = [] := by
  have hmtid := hfits.strings m.mtid (by simp [strings])
  have hnodes := hfits.strings m.nodes (by simp [strings])
  have hnodes6 := hfits.strings m.nodes6 (by simp [strings])
  have hlen : m.token.length < 2 ^ 31 := htoken.trans_lt (by decide)
  obtain ⟨dict, d, hrsp, hes, hmsg⟩ := messageOf_response findMethod ⟨m.mtid, hmtid⟩
    (nodeEntries m.id ⟨m.nodes, hnodes⟩ ⟨m.nodes6, hnodes6⟩
      ((bkey "token", .string ⟨m.token, hlen⟩) :: valuesEntry m.items))
    (fun e => by rw [writeEntries_nodeEntries, writeEntries, writeValues_eq]; rfl)
    hne hfits.size rfl
  have hrest : ∀ key, (ascii "token" == key) = false → (ascii "values" == key) = false →
      lookup ((bkey "token", .string ⟨m.token, hlen⟩) :: valuesEntry m.items) key = none := by
    intro key ht hv
    rw [lookup, List.find?_cons_of_neg (by
      rw [show (bkey "token").1 = ascii "token" from rfl, ht]; simp), valuesEntry]
    split
    · rw [List.find?_cons_of_neg (by rw [show (bkey "values").1 = ascii "values" from rfl, hv]; simp)]
      rfl
    · rfl
  have hgetToken := hes.getByteArrayView (ascii "token") (s := ⟨m.token, hlen⟩)
    ((lookup_nodeEntries rfl rfl rfl).trans rfl)
  have hvalues := parseValues_getList hes ((lookup_nodeEntries rfl rfl rfl).trans rfl)
  have hparse := hrsp.getPeersRsp ⟨m.nodes, hnodes⟩ ⟨m.nodes6, hnodes6⟩ hes
    (lookup_nodeEntries_nodes (hrest _ (by decide) (by decide)))
    (lookup_nodeEntries_nodes6 (hrest _ (by decide) (by decide))) hgetToken htoken hvalues
  have hempty : m.mtid.isEmpty = false := by simpa using hne
  rw [RoundTrips, show messageOf findMethod (Message.getPeersRsp m).encode = _ from hmsg]
  simp only [RPCMsgFactory.buildResponse, hrsp.argsAt, dictOrThrow, orThrow_ok hrsp.mtidAt,
    hparse, bind, Except.bind, pure, Except.pure, hempty, hfind, Bool.false_eq_true, if_false]
  by_cases hnil : m.nodes = []
  · -- `nodes6` is not read then
    rw [if_pos hnil]
    constructor
    · intro h
      have hsame := GetPeersRsp.mk.inj (Message.getPeersRsp.inj (Option.some.inj h))
      exact .inr hsame.2.2.2.1.symm
    · intro h
      rw [← h.resolve_left fun hn => hn hnil]
      rfl
  · rw [if_neg hnil]
    exact ⟨fun _ => .inl hnil, fun _ => rfl⟩

end Kinds

/-- **A message is read back exactly when its nodes are found.**  It has a transaction id, a token
of at most 40 bytes, sizes that the decoder can handle, and the resolver knows the method. -/
theorem roundTrips_iff {findMethod : List UInt8 → Method} {m : Message} (hkind : ∀ e, m ≠ .errMsg e)
    (hmtid : m.base.mtid ≠ []) (htoken : m.token.length ≤ maxTokenSize) (hfits : m.Fits)
    (hfind : findMethod m.base.mtid = m.method) : RoundTrips findMethod m ↔ m.NodesFound := by
  cases m with
  | pingReq m => exact iff_of_true (roundTrips_pingReq hmtid hfits) trivial
  | pingRsp m => exact iff_of_true (roundTrips_pingRsp hmtid hfits hfind) trivial
  | findNodeReq m => exact iff_of_true (roundTrips_findNodeReq hmtid hfits) trivial
  | findNodeRsp m => exact roundTrips_findNodeRsp hmtid hfits hfind
  | getPeersReq m => exact iff_of_true (roundTrips_getPeersReq hmtid hfits) trivial
  | getPeersRsp m => exact roundTrips_getPeersRsp hmtid htoken hfits hfind
  | announceReq m => exact iff_of_true (roundTrips_announceReq hmtid htoken hfits) trivial
  | announceRsp m => exact iff_of_true (roundTrips_announceRsp hmtid hfits hfind) trivial
  | errMsg m => exact absurd rfl (hkind m)

/-- A response to `get_peers` with one node and one value. -/
def onePeer : GetPeersRsp :=
  ⟨⟨[97, 97], Key.null⟩, [1, 2, 3], List.replicate 26 7, [], [⟨⟨.ipv4 0, 6881⟩⟩]⟩

theorem fits_onePeer : Fits (.getPeersRsp onePeer) := ⟨by decide, by decide +kernel⟩

/-- It is read back. -/
theorem onePeer_roundTrips : RoundTrips (fun _ => .getPeers) (.getPeersRsp onePeer) :=
  (roundTrips_iff (by intro e h; cases h) (by decide) (by decide) fits_onePeer rfl).mpr
    (.inl (by decide))

/-- A response to `find_node` with one node, which has an IPv6 address. -/
def oneNode6 : FindNodeRsp := ⟨⟨[97, 97], Key.null⟩, [], List.replicate 38 7⟩

theorem fits_oneNode6 : Fits (.findNodeRsp oneNode6) := ⟨by decide, by decide +kernel⟩

/-- No message comes of it, because its nodes are looked for in a list. -/
theorem oneNode6_not_roundTrips : ¬ RoundTrips (fun _ => .findNode) (.findNodeRsp oneNode6) :=
  fun h => (roundTrips_findNodeRsp (by decide) fits_oneNode6 rfl).mp h rfl

end Message

end KTorrent
