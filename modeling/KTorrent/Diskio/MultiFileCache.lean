import KTorrent.Diskio.DataFiles

/-!
# The multi-file cache

The part of `diskio/multifilecache.cpp` that moves bytes: `loadPiece`,
`savePiece` and `downloadStatusChanged` with `saveFirstAndLastChunk` and
`recreateFile`.  Pieces are read and written buffered.

The state has a `FileSlot` for every file of the torrent: the file at its path in
the output directory, its DND file, and whether the cache has an entry for it in
`files` and in `dnd_files`.

* `loadVisits_congr` — a piece is the same in two states whose files give the
  same bytes.
* `saveVisits_slot` — what a run over the visits of a piece does to one file.
-/

namespace KTorrent

open ByteFile

/-- What there is for one file of the torrent. -/
structure FileSlot where
  /-- The file at `getPathOnDisk()`. -/
  data : Option (List UInt8)
  /-- The file `file<index>.dnd` of the DND directory. -/
  dnd : Option (List UInt8)
  /-- A DND file under the name older versions gave it. -/
  oldDnd : Option (List UInt8)
  /-- The cache has the file in `files`. -/
  fd : Bool
  /-- The cache has the file in `dnd_files`. -/
  dfd : Bool
  deriving DecidableEq, Repr

/-- The state of the cache: a slot for each file index. -/
abbrev MultiFileCache := ℕ → FileSlot

/-! ## Pieces -/

/-- One turn of the loop of `loadPiece`.  Nothing is read when the cache knows
neither of the two files. -/
def FileSlot.read (cs c : ℕ) (v : PieceVisit) (slot : FileSlot) :
    Except DiskError (List UInt8) × FileSlot :=
  let tf := v.part.file
  if slot.fd then
    let (r, data) := CacheFile.read slot.data tf.size v.len v.off
    (r, { slot with data := data })
  else if slot.dfd then
    let dfd := DndFile.new tf cs
    let (buf, dnd) :=
      if v.part.pos = 0 then
        dfd.readLastChunk slot.dnd (u32 (sub64 v.off (v.part.fileOff c cs))) v.len
      else dfd.readFirstChunk slot.dnd (u32 v.off) v.len
    (.ok buf, { slot with dnd := dnd })
  else (.ok [], slot)

/-- One turn of the loop of `savePiece`. -/
def FileSlot.write (cs c : ℕ) (v : PieceVisit) (piece : List UInt8) (slot : FileSlot) :
    Except DiskError Unit × FileSlot :=
  let tf := v.part.file
  if slot.fd then
    let (r, data) := CacheFile.write slot.data tf.size piece v.off
    (r, { slot with data := data })
  else if slot.dfd then
    let dfd := DndFile.new tf cs
    let dnd :=
      if v.part.pos = 0 then
        dfd.writeLastChunk slot.dnd piece (u32 (sub64 v.off (v.part.fileOff c cs)))
      else dfd.writeFirstChunk slot.dnd piece (u32 v.off)
    (.ok (), { slot with dnd := some dnd })
  else (.ok (), slot)

/-- The loop of `loadPiece`, over the reads it makes, into the buffer `buf`. -/
def loadVisits (cs c : ℕ) : List PieceVisit → List UInt8 → MultiFileCache →
    Except DiskError (List UInt8) × MultiFileCache
  | [], buf, s => (.ok buf, s)
  | v :: vs, buf, s =>
    match (s v.part.file.index).read cs c v with
    | (.error e, slot) => (.error e, Function.update s v.part.file.index slot)
    | (.ok bytes, slot) =>
      loadVisits cs c vs (writeAt 0 buf v.pieceOff bytes)
        (Function.update s v.part.file.index slot)

/-- The loop of `savePiece`, over the writes it makes. -/
def saveVisits (cs c : ℕ) (data : List UInt8) : List PieceVisit → MultiFileCache →
    Except DiskError Unit × MultiFileCache
  | [], s => (.ok (), s)
  | v :: vs, s =>
    match (s v.part.file.index).write cs c v (readAt data v.pieceOff v.len) with
    | (.error e, slot) => (.error e, Function.update s v.part.file.index slot)
    | (.ok (), slot) => saveVisits cs c data vs (Function.update s v.part.file.index slot)

/-- `createPiece` makes no piece for a chunk in one file that has no entry in
`files`. -/
def pieceCreated (L : Layout) (cache : PosCache L) (c : ℕ) (s : MultiFileCache) : Bool :=
  match chunkFiles L cache c with
  | [f] => (s f.index).fd
  | _ => true

/-- `MultiFileCache::loadPiece`, for a piece that is not in memory: the bytes of
the piece, `none` when no piece was created. -/
def loadPiece (L : Layout) (cache : PosCache L) (mem : ℕ → UInt8) (c off length : ℕ)
    (s : MultiFileCache) : Except DiskError (Option (List UInt8)) × MultiFileCache :=
  if pieceCreated L cache c s then
    match loadVisits L.chunkSize c (loadPieceVisits L cache c off length) (uninit mem length) s with
    | (.ok piece, s') => (.ok (some piece), s')
    | (.error e, s') => (.error e, s')
  else (.ok none, s)

/-- `MultiFileCache::savePiece`. -/
def savePiece (L : Layout) (cache : PosCache L) (c off : ℕ) (data : List UInt8)
    (s : MultiFileCache) : Except DiskError Unit × MultiFileCache :=
  saveVisits L.chunkSize c data (savePieceVisits L cache c off data.length) s

/-! ## Changing the download status -/

/-- How many bytes of its first chunk a file has room for. -/
def firstChunkBytes (L : Layout) (tf : TorrentFile) : ℕ :=
  let cs := u32 (if tf.firstChunk = L.numChunks - 1 then L.lastChunkSize else L.chunkSize)
  u32 (sub64 cs tf.firstChunkOff)

/-- `MultiFileCache::saveFirstAndLastChunk`.  The buffer is not set before the
file is read into it, and a short read does not fill it. -/
def saveFirstAndLastChunk (L : Layout) (tf : TorrentFile) (mem : ℕ → UInt8) (data : List UInt8)
    (dnd : Option (List UInt8)) : List UInt8 :=
  let out := DndFile.new tf L.chunkSize
  let firstLen := firstChunkBytes L tf
  let tmp := writeAt 0 (uninit mem L.chunkSize) 0 (readAt data 0 firstLen)
  let file := out.writeFirstChunk dnd (readAt tmp 0 firstLen) 0
  if tf.firstChunk ≠ tf.lastChunk then
    let lastLen := u32 tf.lastChunkSize
    let off := tf.fileOffset tf.lastChunk L.chunkSize
    let tmp := writeAt 0 tmp 0 (readAt data off lastLen)
    out.writeLastChunk (some file) (readAt tmp 0 lastLen) 0
  else file

/-- `MultiFileCache::recreateFile`. -/
def recreateFile (L : Layout) (tf : TorrentFile) (dndFile : Option (List UInt8)) : List UInt8 :=
  let dnd := DndFile.new tf L.chunkSize
  let toRead := firstChunkBytes L tf
  let toRead := if toRead > tf.size then u32 tf.size else toRead
  let (tmp, dndFile) := dnd.readFirstChunk dndFile 0 toRead
  let file := writeAt 0 [] 0 tmp
  if tf.firstChunk ≠ tf.lastChunk then
    let off := tf.fileOffset tf.lastChunk L.chunkSize
    let (tmp, _) := dnd.readLastChunk dndFile 0 (u32 tf.lastChunkSize)
    writeAt 0 file off tmp
  else file

/-- `MultiFileCache::downloadStatusChanged(tf, false)` on the file's slot. -/
def FileSlot.exclude (L : Layout) (tf : TorrentFile) (mem : ℕ → UInt8) (slot : FileSlot) :
    FileSlot :=
  if slot.dnd.isSome then slot
  else if slot.oldDnd.isSome then { slot with dnd := slot.oldDnd, oldDnd := none }
  else
    let dnd := match slot.data with
      | some data => some (saveFirstAndLastChunk L tf mem data slot.dnd)
      | none => slot.dnd
    { slot with
      data := none
      dnd := some ((DndFile.new tf L.chunkSize).checkIntegrity dnd)
      fd := false
      dfd := true }

/-- `MultiFileCache::downloadStatusChanged(tf, true)` on the file's slot. -/
def FileSlot.include_ (L : Layout) (tf : TorrentFile) (slot : FileSlot) : FileSlot :=
  if slot.data.isSome then slot
  else { slot with data := some (recreateFile L tf slot.dnd), dnd := none, fd := true, dfd := false }

/-- `MultiFileCache::downloadStatusChanged`. -/
def downloadStatusChanged (L : Layout) (tf : TorrentFile) (download : Bool) (mem : ℕ → UInt8)
    (s : MultiFileCache) : MultiFileCache :=
  Function.update s tf.index
    (if download then (s tf.index).include_ L tf else (s tf.index).exclude L tf mem)

/-! ## Runs over the visits of a piece -/

/-- Two states that differ in one file only load the same piece, if that file
gives the same bytes in both. -/
theorem loadVisits_congr {cs c t : ℕ} (R : FileSlot → FileSlot → Prop) :
    ∀ (vs : List PieceVisit) (buf : List UInt8) (s s' : MultiFileCache),
    (∀ v ∈ vs, v.part.file.index = t → ∀ a b, R a b → ∀ bytes a', a.read cs c v = (.ok bytes, a') →
      ∃ b', b.read cs c v = (.ok bytes, b') ∧ R a' b') →
    (∀ i, i ≠ t → s i = s' i) → R (s t) (s' t) →
    ∀ piece, (loadVisits cs c vs buf s).1 = .ok piece → (loadVisits cs c vs buf s').1 = .ok piece := by
  intro vs
  induction vs with
  | nil => intro buf s s' _ _ _ piece h; exact h
  | cons v vs ih =>
    intro buf s s' hR hsame hrel piece h
    have hR' := fun w hw => hR w (List.mem_cons_of_mem v hw)
    rw [loadVisits] at h ⊢
    cases hread : (s v.part.file.index).read cs c v with
    | mk r slot =>
      cases r with
      | error e => simp [hread] at h
      | ok bytes =>
        simp only [hread] at h
        by_cases ht : v.part.file.index = t
        · rw [ht] at hread h ⊢
          obtain ⟨slot', hread', hrel'⟩ := hR v (List.mem_cons_self ..) ht _ _ hrel bytes slot hread
          simp only [hread']
          refine ih _ _ _ hR' (fun i hi => ?_) ?_ piece h
          · rw [Function.update_of_ne hi, Function.update_of_ne hi, hsame i hi]
          · rwa [Function.update_self, Function.update_self]
        · rw [← hsame _ ht, hread]
          refine ih _ _ _ hR' (fun i hi => ?_) ?_ piece h
          · by_cases hiv : i = v.part.file.index
            · rw [hiv, Function.update_self, Function.update_self]
            · rw [Function.update_of_ne hiv, Function.update_of_ne hiv, hsame i hi]
          · rwa [Function.update_of_ne (Ne.symm ht), Function.update_of_ne (Ne.symm ht)]

theorem loadVisits_single {cs c : ℕ} {v : PieceVisit} {buf bytes : List UInt8} {s : MultiFileCache}
    {slot slot' : FileSlot} (hs : s v.part.file.index = slot)
    (h : slot.read cs c v = (.ok bytes, slot')) :
    (loadVisits cs c [v] buf s).1 = .ok (writeAt 0 buf v.pieceOff bytes) := by
  rw [loadVisits, hs, h]
  rfl

/-- When no write fails, a file only sees its own visits. -/
theorem saveVisits_slot {cs c : ℕ} (data : List UInt8) (t : ℕ) :
    ∀ (vs : List PieceVisit) (s : MultiFileCache),
    (∀ v ∈ vs, ∀ slot : FileSlot,
      (slot.write cs c v (readAt data v.pieceOff v.len)).1 = .ok ()) →
    (saveVisits cs c data vs s).2 t =
      (vs.filter (·.part.file.index = t)).foldl
        (fun slot v => (slot.write cs c v (readAt data v.pieceOff v.len)).2) (s t) := by
  intro vs
  induction vs with
  | nil => intros; rfl
  | cons v vs ih =>
    intro s hok
    have hv := hok v (List.mem_cons_self ..) (s v.part.file.index)
    rw [saveVisits]
    cases hwrite : (s v.part.file.index).write cs c v (readAt data v.pieceOff v.len) with
    | mk r slot =>
      rw [hwrite] at hv
      obtain rfl : r = .ok () := hv
      simp only
      rw [ih _ fun w hw => hok w (List.mem_cons_of_mem v hw)]
      by_cases ht : v.part.file.index = t
      · rw [List.filter_cons_of_pos (by simpa using ht), List.foldl_cons, ← ht, hwrite,
          Function.update_self]
      · rw [List.filter_cons_of_neg (by simpa using ht), Function.update_of_ne (Ne.symm ht)]

end KTorrent
