import KTorrent.Download.RequestCalls
import KTorrent.Lib.Run

/-!
# One peer downloader and its chunk downloads

A request is written down twice: in the `DownloadStatus` of the chunk download that
makes it, and in the lists of the peer downloader it is made to.  The two objects
are joined by calls one way and by the signals `rejected` and `timedout` the other.

* `RequestBooks` — the lists of the peer downloader `me`, and the chunk downloads.
* `emit` — a signal of `me`, and what its handler does.
* `choked`, `checkTimeouts` — the loops that emit signals over the lists the handlers
  change; `none` is a step outside the list.
* `step` — what happens to the two.
-/

namespace KTorrent

variable {PD M : Type} [DecidableEq PD]

/-- A call on the lists. -/
def RequestQueue.apply (maxReqs now : ℕ) (q : RequestQueue PD) : QueueCall PD → RequestQueue PD
  | .download r => q.download maxReqs now r
  | .cancel r => q.cancel r

/-- The calls of an operation, in order. -/
def RequestQueue.play (maxReqs now : ℕ) (q : RequestQueue PD) (cs : List (QueueCall PD)) :
    RequestQueue PD := cs.foldl (RequestQueue.apply maxReqs now) q

/-- The lists of a peer downloader, and the chunk downloads by their chunk. -/
structure RequestBooks (PD M : Type) where
  queue : RequestQueue PD
  chunks : ℕ → Option (ChunkDownload PD)
  mem : M
  /-- `bt::CurrentTime()`. -/
  now : ℕ

/-- What the rates and the choke states allow while an event is handled. -/
structure PeerTurn (PD : Type) where
  /-- How many more requests each piece downloader takes, for each chunk. -/
  room : ℕ → PD → ℕ
  /-- How many requests `me` sends at once. -/
  maxReqs : ℕ

namespace RequestBooks

variable (me : PD) (turn : PeerTurn PD)

/-- A chunk download has changed from `cd` to `cd'`, and has made its calls. -/
def carryOut (s : RequestBooks PD M) (c : ℕ) (cd cd' : ChunkDownload PD) : RequestBooks PD M :=
  { s with
    chunks := Function.update s.chunks c (some cd')
    queue := s.queue.play turn.maxReqs s.now
      (PeerTable.callsOn me cd.toPeerTable cd'.toPeerTable) }

/-- An operation of a chunk download on its piece downloaders. -/
def onChunk (s : RequestBooks PD M) (c : ℕ) (f : ChunkDownload PD → PeerTable PD) :
    RequestBooks PD M :=
  match s.chunks c with
  | none => s
  | some cd => s.carryOut me turn c cd { cd with toPeerTable := f cd }

/-- `me` emits `rejected` or `timedout`: the chunk download of the request handles it,
when it is connected. -/
def emit (reject : Bool) (s : RequestBooks PD M) (r : Request PD) : RequestBooks PD M :=
  s.onChunk me turn r.index fun cd =>
    if me ∈ cd.pdown then
      cd.toPeerTable.onNotDownloaded cd.toPieceTable r me reject (turn.room r.index)
    else cd.toPeerTable

/-- The loop of `choked` over one of the lists, with an iterator at position `i`.  The
handlers of the signal take entries out of the list. -/
def rejectAll (list : RequestQueue PD → List (Request PD)) : ℕ → ℕ → RequestBooks PD M →
    List (Request PD) → Option (RequestBooks PD M × List (Request PD))
  | 0, _, _, _ => none
  | fuel + 1, i, s, reported =>
    if i = (list s.queue).length then some (s, reported)
    else
      match (list s.queue)[i]? with
      | none => none
      | some r => rejectAll list fuel (i + 1) (emit me turn true s r) (reported ++ [r])

/-- `PeerDownloader::choked`, with the requests that are reported. -/
def choked (s : RequestBooks PD M) : Option (RequestBooks PD M × List (Request PD)) :=
  match rejectAll me turn (fun q => q.reqs.map (·.req)) (s.queue.reqs.length + 1) 0 s [] with
  | none => none
  | some (s, reported) =>
    let s := { s with queue := { s.queue with reqs := [] } }
    match rejectAll me turn (·.waitQueue) (s.queue.waitQueue.length + 1) 0 s reported with
    | none => none
    | some (s, reported) => some ({ s with queue := { s.queue with waitQueue := [] } }, reported)

/-- A request is older than `MAX_INTERVAL`. -/
def TimedOut (now : ℕ) (tr : TimeStampedRequest PD) : Prop := 60 * 1000 < now - tr.timeStamp

instance (now : ℕ) (tr : TimeStampedRequest PD) : Decidable (TimedOut now tr) :=
  inferInstanceAs (Decidable (_ < _))

/-- The loop of `checkTimeouts`. -/
def expire : ℕ → RequestBooks PD M → List (Request PD) →
    Option (RequestBooks PD M × List (Request PD))
  | 0, _, _ => none
  | fuel + 1, s, reported =>
    match s.queue.reqs with
    | [] => some (s, reported)
    | tr :: trs =>
      if TimedOut s.now tr then
        expire fuel (emit me turn false { s with queue := { s.queue with reqs := trs } } tr.req)
          (reported ++ [tr.req])
      else some (s, reported)

/-- `PeerDownloader::checkTimeouts`, with the requests that are reported. -/
def checkTimeouts (s : RequestBooks PD M) : Option (RequestBooks PD M × List (Request PD)) :=
  expire me turn (s.queue.reqs.length + 1) s []

/-- What happens to the peer downloader and the chunk downloads.  A chunk download that is loaded
from a file or deleted while it has piece downloaders, and a pause, are not among it. -/
inductive Event (PD : Type) where
  /-- A chunk download is made, for a chunk of `size` bytes. -/
  | start (c : ℕ) (size : ℕ)
  /-- A chunk download without piece downloaders is deleted. -/
  | finish (c : ℕ)
  /-- `ChunkDownload::assign`. -/
  | assign (c : ℕ) (pd : PD)
  /-- `ChunkDownload::release`. -/
  | release (c : ℕ) (pd : PD)
  /-- `ChunkDownload::update`. -/
  | update (c : ℕ)
  /-- A PIECE message, of `me` or of another downloader. -/
  | piece (p : Piece PD)
  /-- A request of another downloader is rejected or timed out. -/
  | lost (r : Request PD) (pd : PD) (reject : Bool)
  /-- `PeerDownloader::update`. -/
  | send
  /-- A REJECT message. -/
  | reject (r : Request PD)
  /-- A CHOKE message; `fast` is `fast_extensions`. -/
  | choke (fast : Bool)
  /-- `PeerDownloader::checkTimeouts`. -/
  | timeouts
  /-- Time goes by. -/
  | tick (d : ℕ)

/-- A PIECE message reaches the chunk download of its chunk. -/
def pieceReceived (cache : ℕ → PieceCache M) (s : RequestBooks PD M) (p : Piece PD) :
    RequestBooks PD M :=
  match s.chunks p.index with
  | none => s
  | some cd =>
    let (_, cd', mem) := cd.piece (cache p.index) p (turn.room p.index) s.mem
    { s.carryOut me turn p.index cd cd' with mem := mem }

/-- One event. -/
def step (cache : ℕ → PieceCache M) (s : RequestBooks PD M) (e : Event PD × PeerTurn PD) :
    RequestBooks PD M :=
  let turn := e.2
  match e.1 with
  | .start c size =>
    match s.chunks c with
    | none => { s with chunks := Function.update s.chunks c (some (.new c (u32 size))) }
    | some _ => s
  | .finish c =>
    match s.chunks c with
    | none => s
    | some cd =>
      if cd.pdown = [] then { s with chunks := Function.update s.chunks c none } else s
  | .assign c pd =>
    s.onChunk me turn c fun cd => (cd.toPeerTable.assign cd.toPieceTable pd (turn.room c)).2
  | .release c pd => s.onChunk me turn c fun cd => cd.toPeerTable.release cd.toPieceTable pd
  | .update c =>
    s.onChunk me turn c fun cd => cd.toPeerTable.sendRequests cd.toPieceTable (turn.room c)
  | .piece p =>
    let s := if p.pd = me then
        { s with queue := s.queue.piece (p.index, p.offset, p.data.length) }
      else s
    pieceReceived me turn cache s p
  | .lost r pd reject =>
    if pd = me then s
    else s.onChunk me turn r.index fun cd =>
      cd.toPeerTable.onNotDownloaded cd.toPieceTable r pd reject (turn.room r.index)
  | .send => { s with queue := s.queue.update turn.maxReqs s.now }
  | .reject r =>
    let (sent, queue) := s.queue.onRejected r
    if sent then emit me turn true { s with queue := queue } r else s
  | .choke fast => if fast then s else ((choked me turn s).map Prod.fst).getD s
  | .timeouts => ((checkTimeouts me turn s).map Prod.fst).getD s
  | .tick d => { s with now := s.now + d }

end RequestBooks

end KTorrent
