import KTorrent.Dht.Key
import KTorrent.Net.Address

/-!
# Buckets of the routing table

The model of `dht/kbucketentry.h` and `dht/kbucket.cpp`.  A bucket holds at most `K`
nodes with keys in its range.  When it is full, a new node can wait for the answer to
the ping of a node that was not heard of for a while.

* `KBucketEntry` — a node with the times and counts that say whether it is good.
* `RPCCalls` — the pings that the RPC server makes for a bucket; `accepts` says for
  which requests it makes a call at all.
* `KBucket.insert`, `onResponse`, `onTimeout`, `timeout`, `split` — as the source
  has them.
-/

namespace KTorrent

/-- `dht::K`. -/
def bucketK : ℕ := 20

/-- `KBucketEntry`. -/
structure KBucketEntry where
  addr : Address
  nodeId : Key
  /-- `last_responded`, a time stamp in milliseconds. -/
  lastResponded : UInt64
  failedQueries : UInt32
  questionablePings : UInt32
  deriving DecidableEq

namespace KBucketEntry

/-- The constructor of `KBucketEntry` with an address and a key. -/
def new (now : UInt64) (addr : Address) (id : Key) : KBucketEntry := ⟨addr, id, now, 0, 0⟩

/-- What `operator==` compares. -/
def node (e : KBucketEntry) : Address × Key := (e.addr, e.nodeId)

/-- `operator==`. -/
def same (a b : KBucketEntry) : Bool := a.node = b.node

/-- `isQuestionable`. -/
def isQuestionable (now : UInt64) (e : KBucketEntry) : Bool := now - e.lastResponded > 15 * 60 * 1000

/-- `isGood`. -/
def isGood (now : UInt64) (e : KBucketEntry) : Bool := !(now - e.lastResponded > 15 * 60 * 1000)

/-- `isBad`. -/
def isBad (now : UInt64) (e : KBucketEntry) : Bool :=
  !e.isGood now && (e.failedQueries > 2 || e.questionablePings > 2)

/-- `requestTimeout`. -/
def requestTimeout (e : KBucketEntry) : KBucketEntry := { e with failedQueries := e.failedQueries + 1 }

/-- `onPingQuestionable`. -/
def onPingQuestionable (e : KBucketEntry) : KBucketEntry :=
  { e with questionablePings := e.questionablePings + 1 }

@[simp] theorem node_requestTimeout (e : KBucketEntry) : e.requestTimeout.node = e.node := rfl

@[simp] theorem node_onPingQuestionable (e : KBucketEntry) : e.onPingQuestionable.node = e.node := rfl

end KBucketEntry

/-- A call that pings the node at `destination`. -/
structure PingCall where
  number : ℕ
  destination : Address
  deriving DecidableEq

/-- What a bucket sees of its `RPCServerInterface`. -/
structure RPCCalls where
  /-- How many calls were asked for. -/
  made : ℕ
  /-- The calls with no answer yet. -/
  outstanding : List PingCall

/-- `RPCServerInterface::doCall`: the call, or nothing. -/
def RPCCalls.doCall (accepts : ℕ → Bool) (srv : RPCCalls) (destination : Address) :
    Option PingCall × RPCCalls :=
  if accepts srv.made then
    (some ⟨srv.made, destination⟩, ⟨srv.made + 1, srv.outstanding ++ [⟨srv.made, destination⟩]⟩)
  else (none, ⟨srv.made + 1, srv.outstanding⟩)

/-- A call has been answered, or its time is up. -/
def RPCCalls.done (srv : RPCCalls) (c : PingCall) : RPCCalls :=
  { srv with outstanding := srv.outstanding.filter (· ≠ c) }

/-- `KBucket`. -/
structure KBucket where
  minKey : Key
  maxKey : Key
  entries : List KBucketEntry
  pendingEntries : List KBucketEntry
  /-- `pending_entries_busy_pinging`. -/
  busyPinging : List (PingCall × KBucketEntry)
  ourId : Key

namespace KBucket

/-- The constructor of `KBucket` with a range. -/
def new (minKey maxKey ourId : Key) : KBucket := ⟨minKey, maxKey, [], [], [], ourId⟩

/-- `keyInRange`. -/
def keyInRange (b : KBucket) (k : Key) : Bool := b.minKey ≤ k ∧ k ≤ b.maxKey

/-- `splitAllowed`. -/
def splitAllowed (b : KBucket) : Bool :=
  if !b.keyInRange b.ourId then false
  else if b.maxKey ≤ b.minKey.addValue 20 then false
  else true

/-! ## Replacing and pinging -/

/-- The first entry with `p` is erased, and `e` is appended. -/
def replaceFirst (p : KBucketEntry → Bool) (e : KBucketEntry) (l : List KBucketEntry) :
    List KBucketEntry :=
  l.eraseP p ++ [e]

/-- `replaceBadEntry`; nothing when there is no bad entry. -/
def replaceBadEntry (now : UInt64) (b : KBucket) (e : KBucketEntry) : Option KBucket :=
  if b.entries.any (·.isBad now) then
    some { b with entries := replaceFirst (·.isBad now) e b.entries }
  else none

/-- The loop of `pingQuestionable` over the entries. -/
def pingFirst (accepts : ℕ → Bool) (now : UInt64) :
    List KBucketEntry → RPCCalls → List KBucketEntry × RPCCalls × Option PingCall
  | [], srv => ([], srv, none)
  | e :: es, srv =>
    if e.isQuestionable now then
      match srv.doCall accepts e.addr with
      | (some c, srv) => (e.onPingQuestionable :: es, srv, some c)
      | (none, srv) =>
        let r := pingFirst accepts now es srv
        (e :: r.1, r.2)
    else
      let r := pingFirst accepts now es srv
      (e :: r.1, r.2)

/-- `pingQuestionable`. -/
def pingQuestionable (accepts : ℕ → Bool) (now : UInt64) (b : KBucket) (srv : RPCCalls)
    (replacement : KBucketEntry) : KBucket × RPCCalls :=
  if 2 ≤ b.busyPinging.length then
    let kept := (b.pendingEntries.eraseP replacement.same).take (bucketK - 1)
    ({ b with pendingEntries := replacement :: kept }, srv)
  else
    match pingFirst accepts now b.entries srv with
    | (entries, srv, some c) =>
      ({ b with entries, busyPinging := b.busyPinging ++ [(c, replacement)] }, srv)
    | (entries, srv, none) => ({ b with entries }, srv)

/-- A bad entry is replaced, or else a questionable one is pinged. -/
def offer (accepts : ℕ → Bool) (now : UInt64) (b : KBucket) (srv : RPCCalls) (e : KBucketEntry) :
    KBucket × RPCCalls :=
  match b.replaceBadEntry now e with
  | some b => (b, srv)
  | none => b.pingQuestionable accepts now srv e

/-! ## The entry points -/

/-- `KBucket::insert`: whether the bucket needs to be split comes first. -/
def insert (accepts : ℕ → Bool) (now : UInt64) (b : KBucket) (srv : RPCCalls) (e : KBucketEntry) :
    Bool × KBucket × RPCCalls :=
  if b.entries.any e.same then
    (false, { b with entries := replaceFirst e.same e b.entries }, srv)
  else if b.entries.length < bucketK then
    (false, { b with entries := b.entries ++ [e] }, srv)
  else
    match b.replaceBadEntry now e with
    | some b => (false, b, srv)
    | none =>
      if b.entries.length = bucketK ∧ b.splitAllowed then (true, b, srv)
      else (false, b.pingQuestionable accepts now srv e)

/-- `pending_entries_busy_pinging.remove`. -/
def removeCall (b : KBucket) (c : PingCall) : KBucket :=
  { b with busyPinging := b.busyPinging.filter (·.1 ≠ c) }

/-- `pending_entries_busy_pinging[c]`. -/
def waiting (b : KBucket) (c : PingCall) : Option KBucketEntry :=
  (b.busyPinging.find? (·.1 = c)).map Prod.snd

/-- `KBucket::onResponse`. -/
def onResponse (accepts : ℕ → Bool) (now : UInt64) (b : KBucket) (srv : RPCCalls) (c : PingCall) :
    KBucket × RPCCalls :=
  match b.waiting c with
  | none => (b, srv)
  | some e => (b.removeCall c).offer accepts now srv e

/-- The loop of `KBucket::onTimeout` of a call, and the removal of the call. -/
def replaceTimedOut (b : KBucket) (c : PingCall) (e : KBucketEntry) : KBucket :=
  let entries :=
    if b.entries.any (·.addr = c.destination) then
      replaceFirst (·.addr = c.destination) e b.entries
    else b.entries
  { b with entries }.removeCall c

/-- The end of `KBucket::onTimeout` of a call. -/
def nextPending (accepts : ℕ → Bool) (now : UInt64) (b : KBucket) (srv : RPCCalls) :
    KBucket × RPCCalls :=
  match b.pendingEntries with
  | pe :: rest =>
    if b.busyPinging.length < 2 then { b with pendingEntries := rest }.offer accepts now srv pe
    else (b, srv)
  | [] => (b, srv)

/-- `KBucket::onTimeout` of a call. -/
def onTimeout (accepts : ℕ → Bool) (now : UInt64) (b : KBucket) (srv : RPCCalls) (c : PingCall) :
    KBucket × RPCCalls :=
  match b.waiting c with
  | none => (b, srv)
  | some e => (b.replaceTimedOut c e).nextPending accepts now srv

/-- `KBucket::onTimeout` of an address. -/
def timeout (b : KBucket) (addr : Address) : KBucket :=
  { b with
    entries := b.entries.modify (b.entries.findIdx (·.addr = addr)) KBucketEntry.requestTimeout }

/-! ## Splitting -/

/-- The body of the loop of `KBucket::split`: an entry goes to its half. -/
def insertHalf (accepts : ℕ → Bool) (now : UInt64) (s : (KBucket × KBucket) × RPCCalls)
    (e : KBucketEntry) : (KBucket × KBucket) × RPCCalls :=
  if s.1.1.keyInRange e.nodeId then
    let r := s.1.1.insert accepts now s.2 e
    ((r.2.1, s.1.2), r.2.2)
  else
    let r := s.1.2.insert accepts now s.2 e
    ((s.1.1, r.2.1), r.2.2)

/-- `KBucket::split`; nothing when it throws. -/
def split (accepts : ℕ → Bool) (now : UInt64) (b : KBucket) (srv : RPCCalls) :
    Option ((KBucket × KBucket) × RPCCalls) :=
  let m := Key.mid b.minKey b.maxKey
  if m = b.minKey ∨ m.addValue 1 = b.maxKey then none
  else
    let left := new b.minKey m b.ourId
    let right := new (m.addValue 1) b.maxKey b.ourId
    some (b.entries.foldl (insertHalf accepts now) ((left, right), srv))

end KBucket

end KTorrent
