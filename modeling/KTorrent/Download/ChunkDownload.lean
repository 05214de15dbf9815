import KTorrent.Diskio.ChunkCache

/-!
# Downloading a chunk

The model of `download/chunkdownload.cpp`.  A `ChunkDownload` keeps two tables:
which pieces of the chunk have arrived and how far they are hashed, and which
piece downloaders are assigned and what was requested from them.  The functions
that deal with piece downloaders change the second table only; the calls they
make on the downloaders are logged.

The cache is a parameter, a `PieceCache`.

How many more requests a piece downloader takes is asked through `isChoked` and
`canAddRequest`; every call comes with the numbers at that time.
-/

namespace KTorrent

/-- A `Request`; the length is always that of the piece. -/
structure Request (PD : Type) where
  /-- The chunk. -/
  index : ℕ
  /-- The offset in the chunk. -/
  offset : ℕ
  /-- The number of bytes. -/
  length : ℕ
  /-- The piece downloader. -/
  pd : Option PD
  deriving DecidableEq, Repr

/-- A `Piece` as it arrives from a peer. -/
structure Piece (PD : Type) where
  /-- The chunk. -/
  index : ℕ
  /-- The offset in the chunk, as the message has it. -/
  offset : ℕ
  /-- The data. -/
  data : List UInt8
  /-- The piece downloader it came through. -/
  pd : PD
  deriving DecidableEq, Repr

/-- A call on a piece downloader. -/
inductive PdCall (PD : Type) where
  | grab (pd : PD)
  | release (pd : PD)
  | download (pd : PD) (r : Request PD)
  | cancel (pd : PD) (r : Request PD)
  | nearlyDone (pd : PD)
  deriving DecidableEq, Repr

/-- `DownloadStatus`: the pieces requested from a piece downloader. -/
structure DownloadStatus where
  /-- How many requests timed out. -/
  timeouts : ℕ
  /-- The pieces, each of them once. -/
  status : List ℕ
  deriving DecidableEq, Repr

namespace DownloadStatus

/-- The constructor. -/
def new : DownloadStatus := ⟨0, []⟩

def add (ds : DownloadStatus) (p : ℕ) : DownloadStatus :=
  if p ∈ ds.status then ds else { ds with status := ds.status ++ [p] }

def remove (ds : DownloadStatus) (p : ℕ) : DownloadStatus :=
  { ds with status := ds.status.filter (· ≠ p) }

def contains (ds : DownloadStatus) (p : ℕ) : Bool := decide (p ∈ ds.status)

def clear (ds : DownloadStatus) : DownloadStatus := { ds with status := [] }

def timeout (ds : DownloadStatus) : DownloadStatus := { ds with timeouts := ds.timeouts + 1 }

end DownloadStatus

/-- The pieces of a chunk: which of them arrived and how far they are hashed. -/
structure PieceTable where
  /-- `chunk->getIndex()`. -/
  index : ℕ
  /-- Number of pieces. -/
  num : ℕ
  /-- Size of the last piece. -/
  lastSize : ℕ
  /-- The pieces that arrived. -/
  pieces : ℕ → Bool
  /-- How many of them arrived. -/
  numDownloaded : ℕ
  /-- Where their data is. -/
  pieceData : ℕ → Option PieceRef
  /-- What the SHA-1 generator was fed with. -/
  hashed : List UInt8
  /-- The number of pieces in the hash. -/
  numPiecesInHash : ℕ

/-- The piece downloaders of a chunk. -/
structure PeerTable (PD : Type) where
  /-- The assigned piece downloaders. -/
  pdown : List PD
  /-- What was requested from each of them. -/
  dstatus : List (PD × DownloadStatus)
  /-- Who the accepted pieces came from; `none` for an earlier session. -/
  pieceProviders : List (Option PD)
  /-- The calls made on piece downloaders so far. -/
  log : List (PdCall PD)

/-- `ChunkDownload`. -/
structure ChunkDownload (PD : Type) extends PieceTable, PeerTable PD

/-! ## Pieces -/

namespace PieceTable

/-- The constructor, for a chunk of `size` bytes. -/
def new (index size : ℕ) : PieceTable where
  index := index
  num := size / maxPieceLen + if size % maxPieceLen ≠ 0 then 1 else 0
  lastSize := if size % maxPieceLen ≠ 0 then size % maxPieceLen else maxPieceLen
  pieces := fun _ => false
  numDownloaded := 0
  pieceData := fun _ => none
  hashed := []
  numPiecesInHash := 0

/-- The length of piece `i`. -/
def pieceLen (t : PieceTable) (i : ℕ) : ℕ := if i = t.num - 1 then t.lastSize else maxPieceLen

/-- The first piece that is missing, from `nn` on; `fuel` pieces are looked at. -/
def hashEnd (t : PieceTable) : ℕ → ℕ → ℕ
  | 0, nn => nn
  | fuel + 1, nn => if nn < t.num ∧ t.pieces nn = true then t.hashEnd fuel (nn + 1) else nn

variable {M : Type}

/-- One turn of the loop of `updateHash`. -/
def hashPiece (cache : PieceCache M) (s : PieceTable × M) (i : ℕ) : PieceTable × M :=
  let (t, m) := s
  let (piece, m) := match t.pieceData i with
    | some r => (some r, m)
    | none => cache.getPiece m (i * maxPieceLen) (t.pieceLen i) true
  match piece with
  | none => (t, m)
  | some r =>
    match cache.bytes m r with
    | none => (t, m)
    | some data => ({ t with hashed := t.hashed ++ data }, cache.savePiece m r)

/-- `ChunkDownload::updateHash`. -/
def updateHash (cache : PieceCache M) (t : PieceTable) (m : M) : PieceTable × M :=
  let nn := t.hashEnd (t.num - t.numPiecesInHash) t.numPiecesInHash
  let s := (List.range' t.numPiecesInHash (nn - t.numPiecesInHash)).foldl (hashPiece cache) (t, m)
  ({ s.1 with numPiecesInHash := nn }, s.2)

/-- The piece is one of the chunk's, is missing and has the right length. -/
def accepts {PD : Type} (t : PieceTable) (p : Piece PD) : Bool :=
  let pp := p.offset / maxPieceLen
  decide (pp < t.num) && !t.pieces pp && decide (p.data.length = t.pieceLen pp)

/-- Piece `pp` arrived. -/
def addPiece (t : PieceTable) (pp : ℕ) (r : PieceRef) : PieceTable :=
  { t with
    pieceData := Function.update t.pieceData pp (some r)
    pieces := Function.update t.pieces pp true
    numDownloaded := t.numDownloaded + 1 }

/-- `bytesDownloaded`. -/
def bytesDownloaded (t : PieceTable) : ℕ :=
  u32 (((List.range t.num).filter (t.pieces ·)).map t.pieceLen).sum

end PieceTable

/-! ## Piece downloaders -/

namespace PeerTable

variable {PD : Type} [DecidableEq PD]

/-- The constructor. -/
def new : PeerTable PD := ⟨[], [], [], []⟩

/-- `dstatus.find(pd)`. -/
def findStatus (w : PeerTable PD) (pd : PD) : Option DownloadStatus :=
  (w.dstatus.find? fun e => e.1 = pd).map Prod.snd

/-- Change the status of a piece downloader, if it has one. -/
def modifyStatus (w : PeerTable PD) (pd : PD) (f : DownloadStatus → DownloadStatus) : PeerTable PD :=
  { w with dstatus := w.dstatus.map fun e => if e.1 = pd then (e.1, f e.2) else e }

/-- `dstatus.erase(pd)`. -/
def eraseStatus (w : PeerTable PD) (pd : PD) : PeerTable PD :=
  { w with dstatus := w.dstatus.filter fun e => e.1 ≠ pd }

/-- Log a call. -/
def call (w : PeerTable PD) (c : PdCall PD) : PeerTable PD := { w with log := w.log ++ [c] }

/-- The request for piece `i`. -/
def requestFor (t : PieceTable) (i : ℕ) (pd : Option PD) : Request PD :=
  ⟨t.index, u32 (i * maxPieceLen), if i + 1 < t.num then maxPieceLen else t.lastSize, pd⟩

/-- `ChunkDownload::sendCancels`. -/
def sendCancels (t : PieceTable) (w : PeerTable PD) (pd : PD) : PeerTable PD :=
  match w.findStatus pd with
  | none => w
  | some ds =>
    (ds.status.foldl (fun w i => w.call (.cancel pd (requestFor t i none))) w).modifyStatus pd
      DownloadStatus.clear

/-- `ChunkDownload::killed`. -/
def killed (w : PeerTable PD) (pd : PD) : PeerTable PD :=
  if pd ∈ w.pdown then { w.eraseStatus pd with pdown := w.pdown.filter (· ≠ pd) } else w

/-- `ChunkDownload::release`. -/
def release (t : PieceTable) (w : PeerTable PD) (pd : PD) : PeerTable PD :=
  if pd ∈ w.pdown then
    let w := sendCancels t (w.call (.release pd)) pd
    { w.eraseStatus pd with pdown := w.pdown.filter (· ≠ pd) }
  else w

/-- `ChunkDownload::releaseAllPDs`. -/
def releaseAllPDs (t : PieceTable) (w : PeerTable PD) : PeerTable PD :=
  { w.pdown.foldl (fun w pd => sendCancels t (w.call (.release pd)) pd) w with
    dstatus := []
    pdown := [] }

/-- `ChunkDownload::cancelAll`. -/
def cancelAll (t : PieceTable) (w : PeerTable PD) : PeerTable PD := w.pdown.foldl (sendCancels t) w

/-- How many other piece downloaders were asked for piece `i`. -/
def timesDownloading (w : PeerTable PD) (pd : PD) (i : ℕ) : ℕ :=
  (w.dstatus.filter fun e => decide (e.1 ≠ pd) && e.2.contains i).length

/-- The loop of `bestPiece` over the pieces `is`; `best` is the best piece so far
and how often it is being downloaded. -/
def searchBest (t : PieceTable) (w : PeerTable PD) (pd : PD) : List ℕ → Option (ℕ × ℕ) → ℕ
  | [], best => (best.map Prod.fst).getD t.num
  | i :: is, best =>
    if t.pieces i then searchBest t w pd is best
    else if ((w.findStatus pd).map (·.contains i)).getD false then searchBest t w pd is best
    else
      let times := w.timesDownloading pd i
      if times = 0 then i
      else
        match best with
        | none => searchBest t w pd is (some (i, times))
        | some (b, count) =>
          searchBest t w pd is (if count > times then some (i, times) else some (b, count))

/-- `ChunkDownload::bestPiece`. -/
def bestPiece (t : PieceTable) (w : PeerTable PD) (pd : PD) : ℕ :=
  searchBest t w pd (List.range t.num) none

/-- `ChunkDownload::sendRequest`, for a piece downloader that is not choked;
`none` when nothing is sent. -/
def sendRequest (t : PieceTable) (w : PeerTable PD) (pd : PD) : Option (PeerTable PD) :=
  match w.findStatus pd with
  | none => none
  | some _ =>
    let bp := bestPiece t w pd
    if bp ≥ t.num then none
    else
      let w := (w.call (.download pd (requestFor t bp (some pd)))).modifyStatus pd (·.add bp)
      let left := sub32 t.num t.numDownloaded
      some (if left < 2 ∧ left > 0 then w.call (.nearlyDone pd) else w)

/-- One round of `sendRequests` over the list of piece downloaders: who stays in
the list, the table, and how many more requests each of them takes. -/
def sendRound (t : PieceTable) : List PD → PeerTable PD → (PD → ℕ) →
    List PD × PeerTable PD × (PD → ℕ)
  | [], w, room => ([], w, room)
  | pd :: pds, w, room =>
    match (if room pd > 0 then sendRequest t w pd else none) with
    | none => sendRound t pds w room
    | some w' =>
      let (tmp, w'', room') := sendRound t pds w' (Function.update room pd (room pd - 1))
      (pd :: tmp, w'', room')

/-- The rounds of `sendRequests`. -/
def sendRounds (t : PieceTable) : ℕ → List PD → PeerTable PD → (PD → ℕ) → PeerTable PD
  | 0, _, w, _ => w
  | _ + 1, [], w, _ => w
  | fuel + 1, pd :: pds, w, room =>
    let (tmp, w', room') := sendRound t (pd :: pds) w room
    sendRounds t fuel tmp w' room'

/-- `ChunkDownload::sendRequests`.  Every round but the last one sends a request,
so that there are at most as many as requests are taken, and one more. -/
def sendRequests (t : PieceTable) (w : PeerTable PD) (room : PD → ℕ) : PeerTable PD :=
  sendRounds t ((w.pdown.map room).sum + 1) w.pdown w room

/-- `ChunkDownload::assign`. -/
def assign (t : PieceTable) (w : PeerTable PD) (pd : PD) (room : PD → ℕ) : Bool × PeerTable PD :=
  if pd ∈ w.pdown then (false, w)
  else
    let w := w.call (.grab pd)
    let w := { w with
      pdown := w.pdown ++ [pd]
      dstatus := (w.eraseStatus pd).dstatus ++ [(pd, DownloadStatus.new)] }
    (true, sendRequests t w room)

/-- Let go of a piece downloader whose request was not answered. -/
def dropPD (t : PieceTable) (w : PeerTable PD) (pd : PD) : PeerTable PD :=
  (sendCancels t (w.call (.release pd)) pd).killed pd

/-- `ChunkDownload::notDownloaded`, for a request made to `pd`. -/
def notDownloaded (t : PieceTable) (w : PeerTable PD) (r : Request PD) (pd : PD) (reject : Bool)
    (room : PD → ℕ) : PeerTable PD :=
  match w.findStatus pd with
  | none => sendRequests t w room
  | some _ =>
    let w := w.modifyStatus pd (·.remove (r.offset / maxPieceLen))
    if reject then sendRequests t (dropPD t w pd) room
    else
      let w := (w.call (.cancel pd r)).modifyStatus pd DownloadStatus.timeout
      -- the timeout was just counted, so the number of timeouts is not zero
      if w.pdown.length > 0 then sendRequests t (dropPD t w pd) room else sendRequests t w room

/-- `ChunkDownload::onRejected` and `ChunkDownload::onTimeout`. -/
def onNotDownloaded (t : PieceTable) (w : PeerTable PD) (r : Request PD) (pd : PD) (reject : Bool)
    (room : PD → ℕ) : PeerTable PD :=
  if t.index = r.index then notDownloaded t w r pd reject room else w

/-- `ChunkDownload::endgameCancel`. -/
def endgameCancel (w : PeerTable PD) (p : Piece PD) : PeerTable PD :=
  let pp := p.offset / maxPieceLen
  w.pdown.foldl (fun w pd =>
    match w.findStatus pd with
    | none => w
    | some ds =>
      if ds.contains pp then
        (w.call (.cancel pd ⟨p.index, p.offset, p.data.length, some p.pd⟩)).modifyStatus pd
          (·.remove pp)
      else w) w

/-- `piece_providers.insert`. -/
def addProvider (w : PeerTable PD) (pd : Option PD) : PeerTable PD :=
  if pd ∈ w.pieceProviders then w else { w with pieceProviders := w.pieceProviders ++ [pd] }

/-- `ChunkDownload::getOnlyDownloader`. -/
def getOnlyDownloader (w : PeerTable PD) : Option PD :=
  match w.pieceProviders with
  | [pd] => pd
  | _ => none

end PeerTable

/-! ## A piece arrives -/

namespace ChunkDownload

variable {PD M : Type} [DecidableEq PD]

/-- The constructor, for a chunk of `size` bytes. -/
def new (index size : ℕ) : ChunkDownload PD :=
  { toPieceTable := PieceTable.new index size, toPeerTable := PeerTable.new }

/-- What `piece` returns: the chunk is complete; the piece was needed. -/
structure PieceOutcome where
  /-- The value returned. -/
  complete : Bool
  /-- The flag `ok`. -/
  ok : Bool
  deriving DecidableEq, Repr

/-- `ChunkDownload::piece`. -/
def piece (cache : PieceCache M) (p : Piece PD) (room : PD → ℕ) (cd : ChunkDownload PD) (m : M) :
    PieceOutcome × ChunkDownload PD × M :=
  let pp := p.offset / maxPieceLen
  if cd.accepts p = false then (⟨false, false⟩, cd, m)
  else
    let w := cd.toPeerTable.modifyStatus p.pd (·.remove pp)
    let refused := fun m => (⟨false, false⟩,
      { cd with toPeerTable := w.sendRequests cd.toPieceTable room }, m)
    match cache.getPiece m p.offset p.data.length false with
    | (none, m) => refused m
    | (some r, m) =>
      match cache.write m r p.data with
      | (false, m) => refused m
      | (true, m) =>
        let w := w.addProvider (some p.pd)
        let w := if w.pdown.length > 1 then w.endgameCancel p else w
        let (t, m) := (cd.toPieceTable.addPiece pp r).updateHash cache m
        if t.numDownloaded ≥ t.num then
          (⟨true, true⟩, { toPieceTable := t, toPeerTable := w.releaseAllPDs t }, m)
        else (⟨false, true⟩, { toPieceTable := t, toPeerTable := w.sendRequests t room }, m)

end ChunkDownload

end KTorrent
