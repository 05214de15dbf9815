import KTorrent.Lib.Run
import KTorrent.Net.Address
import Mathlib.Data.List.AList

/-!
# `UDPTracker`

`tracker/udptracker.cpp` over `tracker/udptrackersocket.cpp`: the requests of one tracker,
its replies, which arrive as packets with whatever transaction id, and its two timers.

* `Reply.read` — what the socket reads from a packet.
* `UDPTracker.sendConnect`, `sendAnnounce`, `sendScrape` — each with a new transaction id.
* `start`, `stop`, `completed`, `manualUpdate`, `scrape` — the calls; `connectReceived`,
  `announceReceived`, `scrapeReceived`, `onError`, `onConnTimeout` and `onResolverResults` —
  the slots; `dataReceived` leads from a packet to a slot.
* `UDPTracker.step` — one of these happens.  Two accounts are kept: `unanswered`, the
  requests sent since the connection timer was started that got no reply, and `log`, the
  announces that were sent and answered.
-/

namespace KTorrent

open Runs

/-! ## The socket -/

/-- `UDPTrackerSocket::Action` of a request. -/
inductive TrackerAction where
  | connect
  | announce
  | scrape
  deriving DecidableEq

/-- `UDPTrackerSocket::transactions`; the ids are `Int32`s, which are not near their ends. -/
abbrev Transactions := AList fun _ : ℤ => TrackerAction

/-- `newTransactionID()`, which goes on from a generated number to the first one that is free. -/
def newTransactionID (transactions : Transactions) (generated : ℤ) : ℤ :=
  (((List.range (transactions.keys.length + 1)).map fun (k : ℕ) => generated + k).find?
    (· ∉ transactions)).getD generated

/-- `ReadInt32(buf, off)`. -/
def readInt32 (buf : List UInt8) (off : ℕ) : Option ℤ :=
  (readUint32 buf off).map fun v => v.toInt32.toInt

/-- A packet from the tracker. -/
inductive Reply where
  | connect (tid : ℤ) (connectionId : UInt64)
  | announce (tid : ℤ) (interval : UInt32) (leechers seeders : ℤ) (ipList : List UInt8)
  | scrape (tid seeders completed leechers : ℤ)
  | error (tid : ℤ) (msg : List UInt8)

namespace Reply

/-- Its transaction id. -/
def tid : Reply → ℤ
  | connect tid _ => tid
  | announce tid .. => tid
  | scrape tid .. => tid
  | error tid _ => tid

/-- The action it answers; an error answers any. -/
def action : Reply → Option TrackerAction
  | connect .. => some .connect
  | announce .. => some .announce
  | scrape .. => some .scrape
  | error .. => none

/-- `dataReceived` and the beginnings of `handleConnect`, `handleAnnounce`, `handleScrape` and
`handleError`: packets that are too short are dropped; all have a transaction id. -/
def read (buf : List UInt8) : Option Reply := do
  let type ← readUint32 buf 0
  let tid ← readInt32 buf 4
  if type = 0 then
    if buf.length < 16 then failure
    let high ← readUint32 buf 8
    let low ← readUint32 buf 12
    return connect tid (UInt64.ofNat (high.toNat * 2 ^ 32 + low.toNat))
  else if type = 1 then
    if buf.length < 20 then failure
    let interval ← readUint32 buf 8
    let leechers ← readInt32 buf 12
    let seeders ← readInt32 buf 16
    return announce tid interval leechers seeders (buf.drop 20)
  else if type = 2 then
    if buf.length < 20 then failure
    let seeders ← readInt32 buf 8
    let completed ← readInt32 buf 12
    let leechers ← readInt32 buf 16
    return scrape tid seeders completed leechers
  else if type = 3 then return error tid (buf.drop 8)
  else failure

end Reply

/-! ## The tracker -/

/-- `TrackerStatus`. -/
inductive TrackerStatus where
  | ok
  | announcing
  | error
  | idle
  deriving DecidableEq

/-- `UDPTracker::Event`. -/
inductive TrackerEvent where
  | none
  | completed
  | started
  | stopped
  deriving DecidableEq

/-- The signals of a tracker. -/
inductive TrackerSignal where
  | requestPending
  | requestOK
  | requestFailed (error : String)
  | stopDone
  | peersReady (peers : List Address)
  deriving DecidableEq

/-- The fields of an announce request. -/
structure AnnounceRequest where
  connectionId : UInt64
  tid : ℤ
  infoHash : { l : List UInt8 // l.length = 20 }
  peerId : { l : List UInt8 // l.length = 20 }
  downloaded : UInt64
  left : UInt64
  uploaded : UInt64
  event : TrackerEvent
  ipAddress : UInt32
  key : UInt32
  numWant : ℤ
  port : UInt16

/-- A packet to the tracker. -/
inductive TrackerMessage where
  | connect (tid : ℤ)
  | announce (r : AnnounceRequest)
  | scrape (connectionId : UInt64) (tid : ℤ) (infoHash : { l : List UInt8 // l.length = 20 })

/-- What does not change: the torrent, the texts of the errors, and for which intervals
`QTimer::start` starts a timer. -/
structure TrackerEnv where
  infoHash : { l : List UInt8 // l.length = 20 }
  peerId : { l : List UInt8 // l.length = 20 }
  key : UInt32
  timeoutError : String
  resolveError : String
  timerStarts : ℤ → Bool
  starts_of_nonneg : ∀ ms, 0 ≤ ms → timerStarts ms = true

/-- What a call finds: the numbers that are generated for transaction ids, and the data for an
announce. -/
structure TrackerMoment where
  announceId : ℤ
  otherId : ℤ
  bytesDownloaded : UInt64
  bytesUploaded : UInt64
  bytesLeft : UInt64
  customIP : UInt32
  port : UInt16

/-- What has become of the announces. -/
inductive AnnounceEvent where
  /-- `start()` is called. -/
  | start
  /-- An announce with this event is sent. -/
  | sent (event : TrackerEvent)
  /-- One with this event is answered; afterwards the tracker is started and its timer runs, or
  not. -/
  | answered (event : TrackerEvent) (running : Bool)
  deriving DecidableEq

/-- The members of `UDPTracker` and its socket.  A timer is running or not. -/
structure UDPTracker where
  interval : UInt32
  seeders : ℤ
  leechers : ℤ
  totalDownloaded : ℤ
  started : Bool
  status : TrackerStatus
  timeOut : Bool
  error : String
  reannounceTimer : Bool
  bytesDownloadedAtStart : UInt64
  bytesUploadedAtStart : UInt64
  connectionId : UInt64
  transactionId : ℤ
  scrapeTransactionId : ℤ
  failures : ℕ
  resolved : Bool
  todoAnnounce : Bool
  todoScrape : Bool
  event : TrackerEvent
  connTimer : Bool
  transactions : Transactions
  sent : List TrackerMessage
  signals : List TrackerSignal
  /-- The requests sent since the connection timer was started that got no reply. -/
  unanswered : List ℤ
  /-- The events of the announces that were sent. -/
  announced : AList fun _ : ℤ => TrackerEvent
  log : List AnnounceEvent

namespace UDPTracker

/-- The constructor; the hostname is resolved already, or not. -/
def new (resolved : Bool) : UDPTracker where
  interval := 0
  seeders := -1
  leechers := -1
  totalDownloaded := -1
  started := false
  status := .idle
  timeOut := false
  error := ""
  reannounceTimer := false
  bytesDownloadedAtStart := 0
  bytesUploadedAtStart := 0
  connectionId := 0
  transactionId := 0
  scrapeTransactionId := 0
  failures := 0
  resolved := resolved
  todoAnnounce := false
  todoScrape := false
  event := .none
  connTimer := false
  transactions := ∅
  sent := []
  signals := []
  unanswered := []
  announced := ∅
  log := []

/-- `Q_EMIT`. -/
def emit (s : UDPTracker) (signal : TrackerSignal) : UDPTracker :=
  { s with signals := s.signals ++ [signal] }

/-- `Tracker::failed(err)`. -/
def failed (s : UDPTracker) (err : String) : UDPTracker :=
  emit { s with error := err, status := .error } (.requestFailed err)

/-- `bytesDownloaded()` and `bytesUploaded()`: since the start. -/
def since (now atStart : UInt64) : UInt64 := if now > atStart then now - atStart else 0

section
variable (env : TrackerEnv) (m : TrackerMoment) (s : UDPTracker)

/-- `sendConnect()`, which starts the connection timer. -/
def sendConnect : UDPTracker :=
  let tid := newTransactionID s.transactions m.otherId
  { s with
    transactionId := tid
    transactions := s.transactions.insert tid .connect
    sent := s.sent ++ [.connect tid]
    timeOut := false
    connTimer := env.timerStarts (60000 * 2 ^ s.failures)
    unanswered := [tid] }

/-- `sendAnnounce()`. -/
def sendAnnounce : UDPTracker :=
  let tid := newTransactionID s.transactions m.announceId
  { s with
    todoAnnounce := false
    transactionId := tid
    transactions := s.transactions.insert tid .announce
    sent := s.sent ++ [.announce
      { connectionId := s.connectionId
        tid := tid
        infoHash := env.infoHash
        peerId := env.peerId
        downloaded := since m.bytesDownloaded s.bytesDownloadedAtStart
        left := if s.event = .completed then 0 else m.bytesLeft
        uploaded := since m.bytesUploaded s.bytesUploadedAtStart
        event := s.event
        ipAddress := m.customIP
        key := env.key
        numWant := if s.event ≠ .stopped then 100 else 0
        port := m.port }]
    unanswered := s.unanswered ++ [tid]
    announced := s.announced.insert tid s.event
    log := s.log ++ [.sent s.event] }

/-- `sendScrape()`. -/
def sendScrape : UDPTracker :=
  let tid := newTransactionID s.transactions m.otherId
  { s with
    todoScrape := false
    scrapeTransactionId := tid
    transactions := s.transactions.insert tid .scrape
    sent := s.sent ++ [.scrape s.connectionId tid env.infoHash]
    unanswered := s.unanswered ++ [tid] }

/-- `doRequest()`; an unresolved hostname is resolved first. -/
def doRequest : UDPTracker :=
  let s :=
    if !s.resolved then { s with todoAnnounce := true }
    else if s.connectionId = 0 then
      sendConnect env m { s with todoAnnounce := true, failures := 0 }
    else s.sendAnnounce env m
  emit { s with status := .announcing } .requestPending

/-- `start()`, with `resetTrackerStats()`. -/
def start : UDPTracker :=
  doRequest env m { s with
    event := .started
    bytesDownloadedAtStart := m.bytesDownloaded
    bytesUploadedAtStart := m.bytesUploaded
    connTimer := false
    log := s.log ++ [.start] }

/-- `stop()`. -/
def stop : UDPTracker :=
  if !s.started then
    let s :=
      if s.transactionId ≠ 0 then
        emit { s with
          transactions := s.transactions.erase s.transactionId
          transactionId := 0
          status := .idle } .requestOK
      else s
    { s with reannounceTimer := false }
  else
    { doRequest env m { s with event := .stopped, reannounceTimer := false, connTimer := false } with
      started := false }

/-- `completed()`. -/
def completed : UDPTracker := doRequest env m { s with event := .completed, connTimer := false }

/-- `manualUpdate()`. -/
def manualUpdate : UDPTracker :=
  let s := { s with connTimer := false }
  if !s.started then s.start env m else s.doRequest env m

/-- `scrape()`. -/
def scrape : UDPTracker :=
  if !s.resolved then { s with todoScrape := true }
  else if s.connectionId = 0 then sendConnect env m { s with todoScrape := true, failures := 0 }
  else s.sendScrape env m

/-- What is to be done is done. -/
def sendTodo : UDPTracker :=
  let s := if s.todoAnnounce then s.sendAnnounce env m else s
  if s.todoScrape then s.sendScrape env m else s

/-- `connectReceived(tid, cid)`. -/
def connectReceived (tid : ℤ) (cid : UInt64) : UDPTracker :=
  if tid ≠ s.transactionId then s
  else sendTodo env m { s with connectionId := cid, failures := 0 }

/-- `interval * 1000`, as the `int` that the timer is started with. -/
def reannounceMsec (interval : UInt32) : ℤ := (interval * 1000).toInt32.toInt

/-- The addresses in an announce reply. -/
def ipAddresses : List UInt8 → List Address
  | a :: b :: c :: d :: e :: f :: ipList =>
    (Address.fromCompactIPv4 [a, b, c, d, e, f]).toList ++ ipAddresses ipList
  | _ => []

/-- The end of `announceReceived`: what the event leads to. -/
def eventDone (interval : UInt32) : UDPTracker :=
  if s.event ≠ .stopped then
    let started := s.started || s.event = TrackerEvent.started
    emit { s with
      started := started
      event := .none
      status := .ok
      reannounceTimer :=
        if started then env.timerStarts (reannounceMsec interval) else s.reannounceTimer }
      .requestOK
  else emit { emit s .stopDone with status := .idle } .requestOK

/-- `announceReceived(tid, buf)`. -/
def announceReceived (tid : ℤ) (interval : UInt32) (leechers seeders : ℤ)
    (ipList : List UInt8) : UDPTracker :=
  if tid ≠ s.transactionId then s
  else
    let carried := (s.announced.lookup tid).getD .none
    let s := eventDone env (emit { s with
      interval := interval
      leechers := leechers
      seeders := seeders
      connectionId := 0
      connTimer := false } (.peersReady (ipAddresses ipList))) interval
    { s with log := s.log ++ [.answered carried (s.started && s.reannounceTimer)] }

/-- `onError(tid, error_string)`. -/
def onError (tid : ℤ) (err : String) : UDPTracker :=
  if tid ≠ s.transactionId then s else s.failed err

/-- `scrapeReceived(tid, buf)`. -/
def scrapeReceived (tid seeders completed leechers : ℤ) : UDPTracker :=
  if tid ≠ s.scrapeTransactionId then s
  else { s with seeders, totalDownloaded := completed, leechers }

/-- `onConnTimeout()`. -/
def onConnTimeout : UDPTracker :=
  let s := { s with timeOut := true, failures := s.failures + 1 }
  if s.connectionId ≠ 0 then
    let s := { s with connectionId := 0 }
    if s.event ≠ .stopped then s.onError s.transactionId env.timeoutError
    else emit { s with status := .idle } .stopDone
  else s.onError s.transactionId env.timeoutError

/-- `onResolverResults(ar)`, which succeeded or not. -/
def onResolverResults (succeeded : Bool) : UDPTracker :=
  if succeeded then
    let s := { s with resolved := true }
    if s.connectionId = 0 then sendConnect env m { s with failures := 0 } else s.sendTodo env m
  else failed { s with failures := s.failures + 1 } env.resolveError

/-- The text of an error reply. -/
def latin1 (msg : List UInt8) : String := String.ofList (msg.map fun b => Char.ofNat b.toNat)

/-- The slot for a reply to a transaction of the right action. -/
def received : Reply → UDPTracker
  | .connect tid cid => s.connectReceived env m tid cid
  | .announce tid interval leechers seeders ipList =>
    s.announceReceived env tid interval leechers seeders ipList
  | .scrape tid seeders completed leechers => s.scrapeReceived tid seeders completed leechers
  | .error tid msg => s.onError tid (latin1 msg)

/-- `handleConnect` … `handleError`: the transaction is over; a reply of another action than it
has is an error without a text. -/
def handleReply (r : Reply) : UDPTracker :=
  let s := { s with unanswered := s.unanswered.erase r.tid }
  match s.transactions.lookup r.tid with
  | none => s
  | some action =>
    let s := { s with transactions := s.transactions.erase r.tid }
    if r.action.any (· ≠ action) then s.onError r.tid "" else s.received env m r

/-- `dataReceived(buf)`. -/
def dataReceived (buf : List UInt8) : UDPTracker :=
  match Reply.read buf with
  | none => s
  | some r => s.handleReply env m r

end

/-! ## Steps -/

/-- What happens to a tracker. -/
inductive Input where
  | start
  | stop
  | completed
  | manualUpdate
  | scrape
  | packet (buf : List UInt8)
  | connTimeout
  | reannounceTimeout
  | resolved (succeeded : Bool)

/-- It happens.  A timer that does not run does not expire; one that expires does not run any
more. -/
def step (env : TrackerEnv) (s : UDPTracker) (i : Input × TrackerMoment) : UDPTracker :=
  match i.1 with
  | .start => s.start env i.2
  | .stop => s.stop env i.2
  | .completed => s.completed env i.2
  | .manualUpdate => s.manualUpdate env i.2
  | .scrape => s.scrape env i.2
  | .packet buf => s.dataReceived env i.2 buf
  | .connTimeout => if s.connTimer then onConnTimeout env { s with connTimer := false } else s
  | .reannounceTimeout =>
    if s.reannounceTimer then manualUpdate env i.2 { s with reannounceTimer := false } else s
  | .resolved succeeded => s.onResolverResults env i.2 succeeded

/-- A torrent of zeros, and a `QTimer` that refuses negative intervals. -/
def plainEnv : TrackerEnv where
  infoHash := ⟨List.replicate 20 0, rfl⟩
  peerId := ⟨List.replicate 20 0, rfl⟩
  key := 0
  timeoutError := "Timeout contacting tracker"
  resolveError := "Unable to resolve hostname"
  timerStarts ms := 0 ≤ ms
  starts_of_nonneg := by simp

/-- A moment at which this number is generated for a transaction id. -/
def momentOf (generated : ℤ) : TrackerMoment := ⟨generated, generated, 0, 0, 0, 0, 0⟩

/-! ## Transaction ids -/

end UDPTracker

end KTorrent
