import KTorrent.Bcodec.RoundTrip
import KTorrent.Dht.KBucket

/-!
# The routing table

The model of `dht/kbuckettable.cpp`: a list of buckets, in the order of their
ranges.  A bucket with our own id is split when it is full.  The table is saved to
a file and loaded again.

* `KBucketTable.insert` — a node is inserted into the bucket that has its key.
* `KBucketTable.responded`, `timedOut`, `timeout` — what is passed on to the buckets.
* `KBucketTable.save`, `load` — the file.
-/

namespace KTorrent

/-! ## The file of the table -/

/-- What `KBucket::save` writes for an entry. -/
def KBucketEntry.save (e : KBucketEntry) : BTree :=
  .dict [(bkey "id", .string e.nodeId.bytes), (bkey "address", .string e.addr.bytes)]

namespace KBucket

/-- `KBucket::save`. -/
def save (b : KBucket) : BTree :=
  .dict [(bkey "min", .string b.minKey.bytes), (bkey "max", .string b.maxKey.bytes),
    (bkey "entries", .list (b.entries.map KBucketEntry.save))]

/-- The loop of `KBucket::load` over the entries.  Reading an address past its end gives
nothing. -/
def loadEntries (now : UInt64) : List BNode → Except NodeError (List KBucketEntry)
  | [] => .ok []
  | node :: nodes =>
    match node.asDict with
    | none => loadEntries now nodes
    | some entry => do
      let id ← entry.getByteArrayView (ascii "id")
      let addr ← entry.getByteArrayView (ascii "address")
      let addr :=
        if addr.length = 6 then Address.fromCompactIPv4 addr else Address.fromCompactIPv6 addr
      let entries ← loadEntries now nodes
      return (addr.map fun addr => KBucketEntry.new now addr (Key.ofBytes id)).toList ++ entries

/-- `KBucket::load`, into a bucket that is new. -/
def load (now : UInt64) (ourId : Key) (dict : BDictNode) : Except NodeError KBucket := do
  let min ← dict.getByteArrayView (ascii "min")
  let max ← dict.getByteArrayView (ascii "max")
  let entries ← loadEntries now ((dict.getList (ascii "entries")).getD [])
  return { new (Key.ofBytes min) (Key.ofBytes max) ourId with entries }

/-- The buckets that take the place of one into which a node is inserted: the bucket, or its
two halves. -/
def insertInto (accepts : ℕ → Bool) (now : UInt64) (b : KBucket) (srv : RPCCalls)
    (e : KBucketEntry) : List KBucket × RPCCalls :=
  match b.insert accepts now srv e with
  | (false, b, srv) => ([b], srv)
  | (true, b, srv) =>
    match b.split accepts now srv with
    -- "Unable to split buckets further !"
    | none => ([b], srv)
    | some ((left, right), srv) =>
      if left.keyInRange e.nodeId then
        let r := left.insert accepts now srv e
        ([r.2.1, right], r.2.2)
      else
        let r := right.insert accepts now srv e
        ([left, r.2.1], r.2.2)

end KBucket

/-! ## The table -/

/-- `KBucketTable`. -/
structure KBucketTable where
  buckets : List KBucket
  ourId : Key

namespace KBucketTable

/-- The constructor of `KBucketTable`. -/
def new (ourId : Key) : KBucketTable := ⟨[], ourId⟩

/-- The first bucket is made when there is none. -/
def firstBucket (t : KBucketTable) : KBucketTable :=
  if t.buckets.isEmpty then { t with buckets := [KBucket.new Key.min Key.max t.ourId] } else t

/-- `findBucket`: the buckets before the one with the key, this one and those after it.
Nothing stands for `buckets.end()`. -/
def findBucket (t : KBucketTable) (id : Key) : Option (List KBucket × KBucket × List KBucket) :=
  match t.buckets.span (fun b => !b.keyInRange id) with
  | (_, []) => none
  | (before, b :: after) => some (before, b, after)

/-- `KBucketTable::insert`. -/
def insert (accepts : ℕ → Bool) (now : UInt64) (t : KBucketTable) (srv : RPCCalls)
    (e : KBucketEntry) : KBucketTable × RPCCalls :=
  let t := t.firstBucket
  match t.findBucket e.nodeId with
  -- "Unable to find bucket !"
  | none => (t, srv)
  | some (before, b, after) =>
    let r := b.insertInto accepts now srv e
    ({ t with buckets := before ++ (r.1 ++ after) }, r.2)

/-- A result of a call goes to the bucket that made it. -/
def toBucket (f : KBucket → RPCCalls → KBucket × RPCCalls) (c : PingCall) :
    List KBucket → RPCCalls → List KBucket × RPCCalls
  | [], srv => ([], srv)
  | b :: bs, srv =>
    if (b.waiting c).isSome then
      let r := f b srv
      (r.1 :: bs, r.2)
    else
      let r := toBucket f c bs srv
      (b :: r.1, r.2)

/-- The loop of `KBucketTable::onTimeout`. -/
def timeoutLoop (addr : Address) : List KBucket → List KBucket
  | [] => []
  | b :: bs =>
    if b.entries.any (·.addr = addr) then b.timeout addr :: bs else b :: timeoutLoop addr bs

/-- `saveTable`: the bytes of the file. -/
def save (t : KBucketTable) : List UInt8 := (BTree.list (t.buckets.map KBucket.save)).emitted

/-- The loop of `loadTable` over the children; an error ends it. -/
def loadBuckets (now : UInt64) (ourId : Key) : List BNode → List KBucket
  | [] => []
  | node :: nodes =>
    match node.asDict with
    | none => loadBuckets now ourId nodes
    | some dict =>
      match KBucket.load now ourId dict with
      | .error _ => []
      | .ok b => b :: loadBuckets now ourId nodes

/-- `loadTable`. -/
def load (now : UInt64) (t : KBucketTable) (data : List UInt8) : KBucketTable :=
  match BDecoder.decode data data.length 0 with
  | .ok (some (.list children _), _) =>
    { t with buckets := t.buckets ++ loadBuckets now t.ourId children }
  | _ => t

/-! ## Events -/

/-- What can happen to the table. -/
inductive Event where
  | insert (now : UInt64) (e : KBucketEntry)
  | response (now : UInt64) (c : PingCall)
  | callTimeout (now : UInt64) (c : PingCall)
  | timeout (addr : Address)
  /-- The table is saved, and loaded into a new one. -/
  | reload (now : UInt64)

/-- It happens. -/
def step (accepts : ℕ → Bool) (s : KBucketTable × RPCCalls) : Event → KBucketTable × RPCCalls
  | .insert now e => s.1.insert accepts now s.2 e
  | .response now c =>
    let r := toBucket (fun b srv => b.onResponse accepts now srv c) c s.1.buckets (s.2.done c)
    ({ s.1 with buckets := r.1 }, r.2)
  | .callTimeout now c =>
    let r := toBucket (fun b srv => b.onTimeout accepts now srv c) c s.1.buckets (s.2.done c)
    ({ s.1 with buckets := r.1 }, r.2)
  | .timeout addr => ({ s.1 with buckets := timeoutLoop addr s.1.buckets }, s.2)
  | .reload now => ((new s.1.ourId).load now s.1.save, s.2)

end KBucketTable

end KTorrent
