import KTorrent.Download.ChunkDownload
import KTorrent.Util.BitSet

/-!
# The downloader

The model of `download/downloader.cpp`: the chunks that are being downloaded and
the piece downloaders that deliver them.

A piece downloader counts how often it was grabbed.  The counter is changed by
the calls that chunk downloads make on it, in the order in which they log them.

* `downloadFrom`, `pieceReceived`, `onExcluded`, `dataChecked`, `onChunkReady`,
  `removePieceDownloader`, `pause` — as the source has them.
* `DownloaderEvent`, `Downloader.step` — what can happen to a downloader.

What the chunk selector chooses and what piece downloaders answer when they are
asked comes with every call.
-/

namespace KTorrent

variable {PD M : Type} [DecidableEq PD]

/-- `PieceDownloader::grab` and `PieceDownloader::release`; the other calls leave the counter
alone. -/
def PdCall.count (grabbed : PD → ℕ) : PdCall PD → PD → ℕ
  | .grab pd => Function.update grabbed pd (grabbed pd + 1)
  | .release pd => Function.update grabbed pd (grabbed pd - 1)
  | _ => grabbed

/-- What the piece downloaders answer at some time. -/
structure PdView (PD : Type) where
  isChoked : PD → Bool
  hasChunk : PD → ℕ → Bool
  /-- `getDownloadRate`. -/
  rate : PD → ℕ
  /-- How many more requests are taken. -/
  room : PD → ℕ

namespace ChunkDownload

/-- How many pieces are left. -/
def left (cd : ChunkDownload PD) : ℕ := sub32 cd.num cd.numDownloaded

/-- `ChunkDownload::getDownloadSpeed`. -/
def getDownloadSpeed (v : PdView PD) (cd : ChunkDownload PD) : ℕ := u32 (cd.pdown.map v.rate).sum

/-- `ChunkDownload::isChoked`. -/
def isChoked (v : PdView PD) (cd : ChunkDownload PD) : Bool := cd.pdown.all v.isChoked

end ChunkDownload

/-- `Downloader`.  The chunks that are being downloaded are in the order of their indices. -/
structure Downloader (PD M : Type) where
  currentChunks : List (ChunkDownload PD)
  pieceDownloaders : List PD
  /-- `getNumGrabbed` of every piece downloader. -/
  grabbed : PD → ℕ
  /-- The cache. -/
  mem : M

namespace Downloader

/-- A downloader that downloads nothing. -/
def new (m : M) : Downloader PD M := ⟨[], [], fun _ => 0, m⟩

/-! ## The chunks that are being downloaded -/

/-- `current_chunks.find`. -/
def find (d : Downloader PD M) (i : ℕ) : Option (ChunkDownload PD) :=
  d.currentChunks.find? fun cd => cd.index = i

/-- `current_chunks.insert`, of a chunk that is not there. -/
def insert (d : Downloader PD M) (cd : ChunkDownload PD) : Downloader PD M :=
  { d with currentChunks := d.currentChunks.orderedInsert (fun a b => a.index ≤ b.index) cd }

/-- `current_chunks.erase`. -/
def erase (d : Downloader PD M) (i : ℕ) : Downloader PD M :=
  { d with currentChunks := d.currentChunks.filter fun cd => cd.index ≠ i }

/-- The chunk download `cd` has become `cd'`; the calls it made are counted. -/
def replace (d : Downloader PD M) (cd cd' : ChunkDownload PD) : Downloader PD M :=
  { d with
    currentChunks := d.currentChunks.map fun c => if c.index = cd.index then cd' else c
    grabbed := (cd'.log.drop cd.log.length).foldl PdCall.count d.grabbed }

/-- Do something to the piece downloaders of chunk `i`, if it is being downloaded. -/
def withPeers (d : Downloader PD M) (i : ℕ)
    (f : PieceTable → PeerTable PD → PeerTable PD) : Downloader PD M :=
  match d.find i with
  | none => d
  | some cd => d.replace cd { cd with toPeerTable := f cd.toPieceTable cd.toPeerTable }

/-! ## Assignments -/

/-- `ChunkDownload::assign`, for a chunk that is being downloaded. -/
def assign (d : Downloader PD M) (cd : ChunkDownload PD) (pd : PD) (v : PdView PD) :
    Bool × Downloader PD M :=
  let r := cd.toPeerTable.assign cd.toPieceTable pd v.room
  (r.1, d.replace cd { cd with toPeerTable := r.2 })

/-- `Downloader::selectCD`: of the chunks with `n` piece downloaders the one with the fewest pieces
left. -/
def selectCD (d : Downloader PD M) (v : PdView PD) (pd : PD) (n : ℕ) : Option (ChunkDownload PD) :=
  d.currentChunks.foldl (fun sel cd =>
    if v.isChoked pd || !v.hasChunk pd cd.index then sel
    else if cd.pdown.length = n then
      match sel with
      | none => some cd
      | some s => if cd.left < s.left then some cd else some s
    else sel) none

/-- `Downloader::selectWorst`. -/
def selectWorst (d : Downloader PD M) (v : PdView PD) (pd : PD) : Option (ChunkDownload PD) :=
  d.currentChunks.foldl (fun cdmin cd =>
    if !v.hasChunk pd cd.index || decide (pd ∈ cd.pdown) then cdmin
    else
      match cdmin with
      | none => some cd
      | some m =>
        if cd.getDownloadSpeed v < m.getDownloadSpeed v then some cd
        else if cd.pdown.length < m.pdown.length then some cd
        else some m) none

/-- `Downloader::findDownloadForPD`. -/
def findDownloadForPD (d : Downloader PD M) (v : PdView PD) (pd : PD) : Bool × Downloader PD M :=
  match d.selectCD v pd 0 with
  | some sel => d.assign sel pd v
  | none => (false, d)

/-- `Downloader::downloadFrom`; `selected` is what the chunk selector chooses, and `chunkSize` are
the sizes of the chunks. -/
def downloadFrom (chunkSize : ℕ → ℕ) (d : Downloader PD M) (v : PdView PD) (selected : Option ℕ)
    (pd : PD) : Bool × Downloader PD M :=
  -- first see if we can use an existing download
  let r := d.findDownloadForPD v pd
  if r.1 then r
  else
    let d := r.2
    match selected with
    | some chunk =>
      match d.find chunk with
      | some cd => d.assign cd pd v
      | none =>
        let cd := ChunkDownload.new chunk (chunkSize chunk)
        (true, ((d.insert cd).assign cd pd v).2)
    | none =>
      if d.grabbed pd = 0 then
        match d.selectWorst v pd with
        | some cdmin => d.assign cdmin pd v
        | none => (false, d)
      else (false, d)

/-! ## What happens -/

/-- `Downloader::pieceReceived`; `completed` is that of the chunk manager. -/
def pieceReceived (cache : ℕ → PieceCache M) (d : Downloader PD M) (p : Piece PD) (room : PD → ℕ)
    (completed : Bool) : Downloader PD M :=
  if completed then d
  else
    match d.find p.index with
    | none => d
    | some cd =>
      let r := cd.piece (cache p.index) p room d.mem
      let d := { d.replace cd r.2.1 with mem := r.2.2 }
      -- whether or not the hash is right, the download is over
      if r.1.complete then d.erase p.index else d

/-- The signals `timedout` and `rejected` of a piece downloader, which the chunks it is assigned to
are connected to. -/
def notDownloaded (d : Downloader PD M) (r : Request PD) (pd : PD) (reject : Bool)
    (room : PD → ℕ) : Downloader PD M :=
  d.withPeers r.index fun t w => if pd ∈ w.pdown then w.onNotDownloaded t r pd reject room else w

/-- What `Downloader::normalUpdate` does to a chunk; `needsUpdate` is `needsToBeUpdated`. -/
def updateChunk (d : Downloader PD M) (i : ℕ) (v : PdView PD) (needsUpdate : Bool) :
    Downloader PD M :=
  match d.find i with
  | none => d
  | some cd =>
    if cd.pdown = [] then d
    else if cd.isChoked v then d.withPeers i fun t w => w.releaseAllPDs t
    else if needsUpdate then d.withPeers i fun t w => w.sendRequests t v.room
    else d

/-- A round of the loop of `onExcluded`. -/
def excludeChunk (d : Downloader PD M) (i : ℕ) : Downloader PD M :=
  ((d.withPeers i fun t w => w.cancelAll t).withPeers i fun t w => w.releaseAllPDs t).erase i

/-- `Downloader::onExcluded`. -/
def onExcluded (d : Downloader PD M) (from_ to_ : ℕ) : Downloader PD M :=
  (List.range' from_ (to_ + 1 - from_)).foldl excludeChunk d

/-- A round of the loop of `dataChecked`. -/
def checkedChunk (okChunks : BitSet) (d : Downloader PD M) (i : ℕ) : Downloader PD M :=
  if okChunks.get i then (d.withPeers i fun t w => w.releaseAllPDs t).erase i else d

/-- `Downloader::dataChecked`. -/
def dataChecked (d : Downloader PD M) (okChunks : BitSet) (from_ to_ : ℕ) : Downloader PD M :=
  (List.range' from_ (min okChunks.numBits.toNat (to_ + 1) - from_)).foldl (checkedChunk okChunks) d

/-- `Downloader::onChunkReady`: a web seed has delivered the chunk, with the right hash or not. -/
def onChunkReady (d : Downloader PD M) (i : ℕ) (hashOk : Bool) : Downloader PD M :=
  if hashOk then (d.withPeers i fun t w => w.cancelAll t).erase i else d

/-- `Downloader::addPieceDownloader`. -/
def addPieceDownloader (d : Downloader PD M) (pd : PD) : Downloader PD M :=
  { d with pieceDownloaders := d.pieceDownloaders ++ [pd] }

/-- `Downloader::removePieceDownloader`. -/
def removePieceDownloader (d : Downloader PD M) (pd : PD) : Downloader PD M :=
  { d with
    currentChunks := d.currentChunks.map fun cd =>
      { cd with toPeerTable := cd.toPeerTable.killed pd }
    pieceDownloaders := d.pieceDownloaders.filter (· ≠ pd) }

/-- `Downloader::pause`. -/
def pause (d : Downloader PD M) : Downloader PD M := { d with currentChunks := [] }

end Downloader

/-! ## Events -/

/-- What can happen to a downloader. -/
inductive DownloaderEvent (PD : Type) where
  | peerAdded (pd : PD)
  | downloadFrom (pd : PD) (v : PdView PD) (selected : Option ℕ)
  | pieceReceived (p : Piece PD) (room : PD → ℕ) (completed : Bool)
  | timedout (r : Request PD) (pd : PD) (room : PD → ℕ)
  | rejected (r : Request PD) (pd : PD) (room : PD → ℕ)
  | updateChunk (i : ℕ) (v : PdView PD) (needsUpdate : Bool)
  | onExcluded (from_ to_ : ℕ)
  | dataChecked (okChunks : BitSet) (from_ to_ : ℕ)
  | onChunkReady (i : ℕ) (hashOk : Bool)
  | removePieceDownloader (pd : PD)
  | pause

namespace Downloader

variable (cache : ℕ → PieceCache M) (chunkSize : ℕ → ℕ)

/-- It happens.  The piece downloader of a new peer has just been constructed, so it is not one of
those there are; and `normalUpdate` only calls `downloadFrom` for those. -/
def step (d : Downloader PD M) : DownloaderEvent PD → Downloader PD M
  | .peerAdded pd =>
    if pd ∈ d.pieceDownloaders then d
    else { d with grabbed := Function.update d.grabbed pd 0 }.addPieceDownloader pd
  | .downloadFrom pd v selected =>
    if pd ∈ d.pieceDownloaders then (d.downloadFrom chunkSize v selected pd).2 else d
  | .pieceReceived p room completed => d.pieceReceived cache p room completed
  | .timedout r pd room => d.notDownloaded r pd false room
  | .rejected r pd room => d.notDownloaded r pd true room
  | .updateChunk i v needsUpdate => d.updateChunk i v needsUpdate
  | .onExcluded from_ to_ => d.onExcluded from_ to_
  | .dataChecked okChunks from_ to_ => d.dataChecked okChunks from_ to_
  | .onChunkReady i hashOk => d.onChunkReady i hashOk
  | .removePieceDownloader pd => d.removePieceDownloader pd
  | .pause => d.pause

end Downloader

end KTorrent
