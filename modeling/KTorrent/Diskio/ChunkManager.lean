import KTorrent.Torrent.ChunkPos

/-!
# The chunk manager

The model of `diskio/chunkmanager.cpp` and of the priority setters of
`torrent/torrentfile.cpp`: which chunks are downloaded, excluded or only seeded,
the priorities of files and chunks, and the three small files the manager keeps
them in (`index`, `file_info` and `file_priority`).

A bit set or an array of the source is a function on chunk or file numbers; a
loop that does the same to every chunk of a range is `onRange`.  The position
cache of `calcChunkPos` does not show: by `calcChunkPos_eq` a call returns the
files of `Layout.overlapping` whatever is in it.

Not part of the state: the piece cache and the data files, download percentages
and the signals to views.
-/

namespace KTorrent

/-- What the manager needs to know about multimedia files. -/
structure PreviewConfig where
  /-- `isMultimedia` of a file. -/
  isMultimedia : ℕ → Bool
  /-- `isVideo` of a file. -/
  isVideo : ℕ → Bool
  /-- `preview_size_audio`. -/
  previewSizeAudio : ℕ
  /-- `preview_size_video`. -/
  previewSizeVideo : ℕ

/-- The state of a `ChunkManager`, of the file priorities of its torrent and of
its files on disk. -/
structure ChunkManager where
  /-- Priority of each chunk. -/
  chunkPriority : ℕ → Priority
  /-- Whether the status of a chunk is `ON_DISK`. -/
  onDisk : ℕ → Bool
  /-- The chunks that are downloaded. -/
  bitset : ℕ → Bool
  /-- The chunks that are excluded. -/
  excludedChunks : ℕ → Bool
  /-- The chunks that are only seeded. -/
  onlySeedChunks : ℕ → Bool
  /-- The chunks that have to be downloaded. -/
  todo : ℕ → Bool
  /-- Set while `loadIndexFile` runs. -/
  duringLoad : Bool
  /-- Priority of each file. -/
  priority : ℕ → Priority
  /-- Priority of each file before its last change. -/
  oldPriority : ℕ → Priority
  /-- The entries of the `index` file. -/
  indexFile : List ℕ
  /-- The numbers in the `file_info` file. -/
  fileInfoFile : Option (List ℕ)
  /-- The numbers in the `file_priority` file. -/
  filePriorityFile : Option (List ℕ)

/-- A loop over the chunks `from, …, to`, in whatever order the two are given,
that changes the entry of each chunk below `n`. -/
def onRange {α : Type*} (n from_ to_ : ℕ) (g : ℕ → α → α) (f : ℕ → α) : ℕ → α := fun i =>
  if min from_ to_ ≤ i ∧ i ≤ max from_ to_ ∧ i < n then g i (f i) else f i

/-- `isBorderChunk`: a file ends in the chunk in which the next one starts. -/
def isBorderChunk (L : Layout) (idx : ℕ) : Bool :=
  (L.files.zip L.files.tail).any fun (a, b) =>
    a.lastChunk == b.firstChunk && a.lastChunk == idx

namespace ChunkManager

variable (L : Layout) (cfg : PreviewConfig)

/-! ## Ranges of chunks -/

/-- `ChunkManager::prioritise`. -/
def prioritise (s : ChunkManager) (from_ to_ : ℕ) (priority : Priority) : ChunkManager :=
  { s with
    chunkPriority := onRange L.numChunks from_ to_ (fun _ _ => priority) s.chunkPriority
    onlySeedChunks := onRange L.numChunks from_ to_ (fun _ _ => priority == .onlySeed)
      s.onlySeedChunks
    todo := onRange L.numChunks from_ to_
      (fun i _ => if priority = .onlySeed ∨ priority = .excluded then false else !s.bitset i)
      s.todo }

/-- The priority of a chunk that is needed for a preview. -/
def previewPriority : Priority → Priority
  | .first => .firstPreview
  | .normal => .normalPreview
  | .last => .lastPreview
  | p => p

/-- `ChunkManager::prioritisePreview`. -/
def prioritisePreview (s : ChunkManager) (from_ to_ : ℕ) : ChunkManager :=
  { s with
    chunkPriority := onRange L.numChunks from_ to_ (fun _ => previewPriority) s.chunkPriority }

/-- `ChunkManager::exclude`. -/
def exclude (s : ChunkManager) (from_ to_ : ℕ) : ChunkManager :=
  { s with
    chunkPriority := onRange L.numChunks from_ to_ (fun _ _ => .excluded) s.chunkPriority
    excludedChunks := onRange L.numChunks from_ to_ (fun _ _ => true) s.excludedChunks
    onlySeedChunks := onRange L.numChunks from_ to_ (fun _ _ => false) s.onlySeedChunks
    todo := onRange L.numChunks from_ to_ (fun _ _ => false) s.todo
    bitset := onRange L.numChunks from_ to_ (fun _ _ => false) s.bitset }

/-- `ChunkManager::include`. -/
def include_ (s : ChunkManager) (from_ to_ : ℕ) : ChunkManager :=
  { s with
    chunkPriority := onRange L.numChunks from_ to_ (fun _ _ => .normal) s.chunkPriority
    excludedChunks := onRange L.numChunks from_ to_ (fun _ _ => false) s.excludedChunks
    todo := onRange L.numChunks from_ to_ (fun i b => if s.bitset i then b else true) s.todo }

/-! ## Preview priorities -/

/-- `previewChunkRangeSize` of a file. -/
def previewChunkRangeSize (f : TorrentFile) : ℕ :=
  if cfg.isMultimedia f.index = false then 0
  else if f.firstChunk = f.lastChunk then 1
  else
    let previewSize := if cfg.isVideo f.index then cfg.previewSizeVideo else cfg.previewSizeAudio
    if u32 (previewSize / L.chunkSize) = 0 then 1 else u32 (previewSize / L.chunkSize)

/-- `doPreviewPriority`. -/
def doPreviewPriority (s : ChunkManager) (f : TorrentFile) : ChunkManager :=
  if s.priority f.index = .excluded ∨ s.priority f.index = .onlySeed then s
  else if f.firstChunk = f.lastChunk then s.prioritisePreview L f.firstChunk f.lastChunk
  else
    let nchunks := previewChunkRangeSize L cfg f
    if nchunks = 0 then s
    else
      let s₁ := s.prioritisePreview L f.firstChunk (u32 (f.firstChunk + nchunks))
      if sub32 f.lastChunk f.firstChunk > nchunks then
        s₁.prioritisePreview L (sub32 f.lastChunk nchunks) f.lastChunk
      else s₁

/-! ## Files of the manager -/

/-- `savePriorityInfo`, which also saves the file info. -/
def savePriorityInfo (s : ChunkManager) : ChunkManager :=
  if s.duringLoad then s
  else
    let dnd := (List.range L.files.length).filter fun i => s.priority i == .excluded
    let prios := (List.range L.files.length).flatMap fun i =>
      if s.priority i ≠ .normal then [i, (s.priority i).value] else []
    { s with
      fileInfoFile := some (dnd.length :: dnd)
      filePriorityFile := some (prios.length :: prios) }

/-- `saveIndexFile`. -/
def saveIndexFile (s : ChunkManager) : ChunkManager :=
  savePriorityInfo L { s with indexFile := (List.range L.numChunks).filter s.onDisk }

/-- `writeIndexFileEntry`. -/
def writeIndexFileEntry (s : ChunkManager) (i : ℕ) : ChunkManager :=
  { s with indexFile := s.indexFile ++ [i] }

/-! ## Single chunks -/

/-- `ChunkManager::resetChunk`. -/
def resetChunk (s : ChunkManager) (i : ℕ) : ChunkManager :=
  if i ≥ L.numChunks ∨ s.duringLoad then s
  else
    { s with
      onDisk := Function.update s.onDisk i false
      bitset := Function.update s.bitset i false
      todo := Function.update s.todo i (!s.excludedChunks i && !s.onlySeedChunks i) }

/-- `ChunkManager::chunkDownloaded`. -/
def chunkDownloaded (s : ChunkManager) (i : ℕ) : ChunkManager :=
  if i ≥ L.numChunks then s
  else if s.chunkPriority i ≠ .excluded then
    writeIndexFileEntry
      { s with
        bitset := Function.update s.bitset i true
        todo := Function.update s.todo i false
        onDisk := Function.update s.onDisk i true } i
  else s

/-- `ChunkManager::dataChecked`. -/
def dataChecked (s : ChunkManager) (okChunks : ℕ → Bool) (from_ to_ : ℕ) : ChunkManager :=
  let checked := fun i => from_ ≤ i ∧ i < L.numChunks ∧ i ≤ to_
  let s₁ := { s with
    bitset := fun i => if checked i then okChunks i else s.bitset i
    todo := fun i =>
      if checked i ∧ okChunks i ∧ !s.bitset i then false
      else if checked i ∧ !okChunks i ∧ s.bitset i then
        !s.onlySeedChunks i && !s.excludedChunks i
      else s.todo i
    onDisk := fun i =>
      if checked i ∧ okChunks i ∧ !s.bitset i then true
      else if checked i ∧ !okChunks i ∧ s.bitset i then false
      else s.onDisk i }
  s₁.saveIndexFile L

/-- `ChunkManager::completed`. -/
def completed (s : ChunkManager) : Bool :=
  (List.range L.numChunks).countP s.todo == 0 && decide (0 < (List.range L.numChunks).countP s.bitset)

/-! ## Files that were there before -/

/-- `allFilesExistOfChunk`; `preExisting` is `isPreExistingFile` of a file. -/
def allFilesExistOfChunk (preExisting : ℕ → Bool) (idx : ℕ) : Bool :=
  (L.overlapping idx).all fun f => preExisting f.index

/-- What `markExistingFilesAsDownloaded` does to a chunk; there is no result when `d->chunks` has no
such chunk. -/
def markDownloaded (s : ChunkManager) (i : ℕ) : Option ChunkManager :=
  if i < L.numChunks then
    some { s with
      onDisk := Function.update s.onDisk i true
      bitset := Function.update s.bitset i true
      todo := Function.update s.todo i false }
  else none

/-- The first or the last chunk of a file: all files of it must have been there. -/
def markEnd (preExisting : ℕ → Bool) (s : ChunkManager) (i : ℕ) : Option ChunkManager :=
  if allFilesExistOfChunk L preExisting i then s.markDownloaded L i else some s

/-- One round of the loop of `markExistingFilesAsDownloaded` over the files. -/
def markExistingFile (preExisting : ℕ → Bool) (s : ChunkManager) (tf : TorrentFile) :
    Option ChunkManager :=
  if preExisting tf.index then do
    let middle := List.range' (tf.firstChunk + 1) (tf.lastChunk - (tf.firstChunk + 1))
    let s ← middle.foldlM (markDownloaded L) s
    let s ← markEnd L preExisting s tf.firstChunk
    markEnd L preExisting s tf.lastChunk
  else some s

/-- `ChunkManager::markExistingFilesAsDownloaded` of a torrent with several files. -/
def markExistingFilesAsDownloaded (s : ChunkManager) (preExisting : ℕ → Bool) :
    Option ChunkManager := do
  let s ← L.files.foldlM (markExistingFile L preExisting) s
  return s.saveIndexFile L

/-! ## Chunks shared by files -/

/-- `setBorderChunkPriority`: the highest priority of the files of the chunk. -/
def setBorderChunkPriority (s : ChunkManager) (idx : ℕ) (prio : Priority) : ChunkManager :=
  let highest := (L.overlapping idx).foldl
    (fun highest f => if highest.value < (s.priority f.index).value then s.priority f.index
      else highest) prio
  s.prioritise L idx idx highest

/-- `resetBorderChunk`: the chunk is reset unless another file still needs it. -/
def resetBorderChunk (s : ChunkManager) (idx : ℕ) (tf : TorrentFile) : Bool × ChunkManager :=
  match (L.overlapping idx).find? fun other =>
      other.index != tf.index && s.priority other.index != .excluded with
  | some other => (false, s.setBorderChunkPriority L idx (s.priority other.index))
  | none => (true, s.resetChunk L idx)

/-- What `downloadStatusChanged` does at either end of the file: a chunk that lies
in one file only is reset, otherwise `resetBorderChunk` decides.  The flag says
whether the chunk was reset. -/
def resetEnd (s : ChunkManager) (idx : ℕ) (tf : TorrentFile) : Bool × ChunkManager :=
  if isBorderChunk L idx then s.resetBorderChunk L idx tf else (true, s.resetChunk L idx)

/-- The branch of `downloadStatusChanged` for a file that is no longer downloaded. -/
def excludeFile (s : ChunkManager) (tf : TorrentFile) : ChunkManager :=
  let first := tf.firstChunk
  let last := tf.lastChunk
  if first = last then
    let r := s.resetEnd L first tf
    if r.1 then r.2.exclude L first last else r.2
  else
    -- the chunks that lie in this file only
    let s₁ := (List.range' (first + 1) (last - (first + 1))).foldl (resetChunk L) s
    let r₁ := s₁.resetEnd L first tf
    let first' := if r₁.1 then first else first + 1
    let r₂ := if last ≠ first' then r₁.2.resetEnd L last tf else (true, r₁.2)
    let last' := if r₂.1 then last else last - 1
    if first' ≤ last' then r₂.2.exclude L first' last' else r₂.2

/-- `downloadStatusChanged`. -/
def downloadStatusChanged (s : ChunkManager) (tf : TorrentFile) (download : Bool) :
    ChunkManager :=
  if download then
    let s₁ := s.include_ L tf.firstChunk tf.lastChunk
    let s₂ := if cfg.isMultimedia tf.index then s₁.doPreviewPriority L cfg tf else s₁
    s₂.savePriorityInfo L
  else (s.excludeFile L tf).savePriorityInfo L

/-- `ChunkManager::downloadPriorityChanged`. -/
def downloadPriorityChanged (s : ChunkManager) (tf : TorrentFile)
    (newPriority oldPriority : Priority) : ChunkManager :=
  if newPriority = .excluded then s.downloadStatusChanged L cfg tf false
  else
    let s₁ := if oldPriority = .excluded then s.downloadStatusChanged L cfg tf true else s
    let s₂ := s₁.savePriorityInfo L
    let first := tf.firstChunk
    let last := tf.lastChunk
    let s₃ := if oldPriority = .onlySeed then s₂.include_ L first last else s₂
    let s₄ :=
      if first = last then
        if isBorderChunk L first then s₃.setBorderChunkPriority L first newPriority
        else s₃.prioritise L first first newPriority
      else
        let (first', s') :=
          if isBorderChunk L first then (first + 1, s₃.setBorderChunkPriority L first newPriority)
          else (first, s₃)
        let (last', s'') :=
          if isBorderChunk L last then (last - 1, s'.setBorderChunkPriority L last newPriority)
          else (last, s')
        if first' ≤ last' then s''.prioritise L first' last' newPriority else s''
    if cfg.isMultimedia tf.index then s₄.doPreviewPriority L cfg tf else s₄

/-! ## Priorities of files -/

/-- Store the new priority of a file and the one before, and tell the manager. -/
def changePriority (s : ChunkManager) (tf : TorrentFile) (p : Priority) : ChunkManager :=
  downloadPriorityChanged L cfg
    { s with
      oldPriority := Function.update s.oldPriority tf.index (s.priority tf.index)
      priority := Function.update s.priority tf.index p }
    tf p (s.priority tf.index)

/-- `TorrentFile::setDoNotDownload`. -/
def setDoNotDownload (s : ChunkManager) (tf : TorrentFile) (dnd : Bool) : ChunkManager :=
  let s₁ := if s.priority tf.index ≠ .excluded ∧ dnd then s.changePriority L cfg tf .excluded else s
  if s₁.priority tf.index = .excluded ∧ !dnd then s₁.changePriority L cfg tf .normal else s₁

/-- `TorrentFile::setPriority`. -/
def setPriority (s : ChunkManager) (tf : TorrentFile) (newPriority : Priority) : ChunkManager :=
  if s.priority tf.index ≠ newPriority then
    let s₁ := if s.priority tf.index = .excluded then s.setDoNotDownload L cfg tf false else s
    if newPriority = .excluded then s₁.setDoNotDownload L cfg tf true
    else s₁.changePriority L cfg tf newPriority
  else s

/-- A call of one of the two setters. -/
inductive PriorityCall where
  | setPriority (file : Fin L.files.length) (newPriority : Priority)
  | setDoNotDownload (file : Fin L.files.length) (dnd : Bool)

/-- The file whose priority is set. -/
def PriorityCall.file {L : Layout} : PriorityCall L → TorrentFile
  | setPriority i _ => L.files[i]
  | setDoNotDownload i _ => L.files[i]

/-- The call asks for the file to be excluded. -/
def PriorityCall.excludes {L : Layout} : PriorityCall L → Bool
  | setPriority _ p => p == .excluded
  | setDoNotDownload _ dnd => dnd

/-- Make a call. -/
def applyCall (s : ChunkManager) : PriorityCall L → ChunkManager
  | .setPriority i p => s.setPriority L cfg L.files[i] p
  | .setDoNotDownload i dnd => s.setDoNotDownload L cfg L.files[i] dnd

/-! ## Construction and loading -/

/-- `setupPriorities` of a multi-file torrent. -/
def setupPriorities (s : ChunkManager) : ChunkManager :=
  L.files.foldl (fun s f => if cfg.isMultimedia f.index then s.doPreviewPriority L cfg f else s) s

/-- A new manager over the files that are on disk; all files have normal priority. -/
def new (indexFile : List ℕ) (fileInfoFile filePriorityFile : Option (List ℕ)) : ChunkManager :=
  setupPriorities L cfg
    { chunkPriority := fun _ => .normal
      onDisk := fun _ => false
      bitset := fun _ => false
      excludedChunks := fun _ => false
      onlySeedChunks := fun _ => false
      todo := fun i => decide (i < L.numChunks)
      duringLoad := false
      priority := fun _ => .normal
      oldPriority := fun _ => .normal
      indexFile := indexFile
      fileInfoFile := fileInfoFile
      filePriorityFile := filePriorityFile }

/-- The entries `loadFileInfo` gets to: reading stops where the file ends. -/
def loadFileInfo (s : ChunkManager) : ChunkManager :=
  match s.fileInfoFile with
  | some (num :: dnd) =>
    (dnd.take num).foldl
      (fun s i => match L.files[i]? with
        | none => s
        | some tf => s.setDoNotDownload L cfg tf true) s
  | _ => s

/-- The priority that a number of the `file_priority` file stands for; `none` for
the default, which is not set again. -/
def loadedPriority (value : ℕ) : Option Priority :=
  if value = Priority.first.value then some .first
  else if value = Priority.normal.value then none
  else if value = Priority.excluded.value then some .excluded
  else if value = Priority.onlySeed.value then some .onlySeed
  else some .last

/-- The loop of `loadPriorityInfo` over pairs of a file and its priority. -/
def loadPriorities : List ℕ → ChunkManager → ChunkManager
  | idx :: value :: rest, s =>
    match L.files[idx]? with
    | none => s.loadFileInfo L cfg
    | some tf =>
      loadPriorities rest (match loadedPriority value with
        | none => s
        | some p => s.setPriority L cfg tf p)
  | _, s => s

/-- `loadPriorityInfo`. -/
def loadPriorityInfo (s : ChunkManager) : ChunkManager :=
  match s.filePriorityFile with
  | some (num :: buf) =>
    if num > 2 * L.files.length ∨ buf.length < num then s.loadFileInfo L cfg
    else loadPriorities L cfg (buf.take num) s
  | _ => s.loadFileInfo L cfg

/-- One round of the loop of `loadIndexFile`. -/
def loadIndexEntry (s : ChunkManager) (idx : ℕ) : ChunkManager :=
  if idx < L.numChunks then
    { s with
      onDisk := Function.update s.onDisk idx true
      bitset := Function.update s.bitset idx true
      todo := Function.update s.todo idx false }
  else s

/-- `loadIndexFile`.  The end of the file is noticed only by a read that fails, so
a non-empty file gets a last round with a header nobody has written: `stale` is
what its uninitialised `index` holds. -/
def loadIndexFile (stale : ℕ) (s : ChunkManager) : ChunkManager :=
  let s₁ := loadPriorityInfo L cfg { s with duringLoad := true }
  let s₂ := if s₁.indexFile = [] then s₁ else (s₁.indexFile ++ [stale]).foldl (loadIndexEntry L) s₁
  { s₂ with duringLoad := false }

end ChunkManager
end KTorrent
