import KTorrent.Diskio.DndAreas

/-!
# Bytes of an excluded file

Excluding a file and including it again must not lose the bytes of the chunks it
shares with files that are downloaded.

* `KeepsSharedBytes` — the law: pieces of shared chunks are the same before and
  after, and the recreated file has the bytes last stored for it.
* `keepsSharedBytes_iff` — the cache keeps it exactly when the file does not start
  with a chunk that it leaves to other files before the end.
-/

namespace KTorrent

open ByteFile

/-! ## The law -/

/-- The chunk has bytes of `tf` and of another file, which is still downloaded. -/
structure SharedChunk (L : Layout) (s : MultiFileCache) (tf : TorrentFile) (c : ℕ) : Prop where
  chunk_lt : c < L.numChunks
  mem : tf ∈ L.overlapping c
  other : ∃ g ∈ L.overlapping c, g ≠ tf ∧ (s g.index).fd = true

/-- A call of `savePiece`. -/
structure Save (L : Layout) where
  /-- The position cache at the time of the call. -/
  cache : PosCache L
  /-- The chunk of the piece. -/
  chunk : ℕ
  /-- Where the piece starts in the chunk. -/
  off : ℕ
  /-- The bytes of the piece. -/
  data : List UInt8

/-- The calls, one after the other. -/
def savePieces (L : Layout) (saves : List (Save L)) (s : MultiFileCache) : MultiFileCache :=
  saves.foldl (fun s w => (savePiece L w.cache w.chunk w.off w.data s).2) s

/-- The bytes last stored, after a further call. -/
def Save.store {L : Layout} (stored : ℕ → Option UInt8) (w : Save L) : ℕ → Option UInt8 :=
  storePiece (w.chunk * L.chunkSize + w.off) w.data stored

/-- Excluding and including `tf` again keeps the bytes its neighbours need,
whatever is on disk and whatever the buffers hold that the program does not set. -/
structure KeepsSharedBytes (L : Layout) (tf : TorrentFile) : Prop where
  /-- A piece of a shared chunk is the same before and after. -/
  load : ∀ (s : MultiFileCache) (cache cache' : PosCache L) (tmp mem : ℕ → UInt8) (c off len : ℕ),
    (s tf.index).Downloaded → SharedChunk L s tf c → off + len ≤ L.sizeOfChunk c →
    ∀ piece, (loadPiece L cache mem c off len s).1 = .ok (some piece) →
      (loadPiece L cache' mem c off len (downloadStatusChanged L tf false tmp s)).1 =
        .ok (some piece)
  /-- The recreated file has the bytes last stored in every shared chunk. -/
  recreate : ∀ (s : MultiFileCache) (tmp tmp' : ℕ → UInt8) (saves : List (Save L)),
    (s tf.index).Downloaded →
    (∀ w ∈ saves, SharedChunk L s tf w.chunk ∧ w.off + w.data.length ≤ L.sizeOfChunk w.chunk) →
    ∃ data, (downloadStatusChanged L tf true tmp'
        (savePieces L saves (downloadStatusChanged L tf false tmp s)) tf.index).data = some data ∧
      ∀ p < tf.size, (∃ g ∈ L.overlapping ((tf.cacheOffset + p) / L.chunkSize), g ≠ tf) →
        ∀ b, saves.foldl Save.store (storedBytes tf (s tf.index)) (tf.cacheOffset + p) = some b →
          data[p]? = some b

/-! ## Pieces of shared chunks -/

section Pieces

variable {L : DataLayout} {tf : TorrentFile} {s : MultiFileCache} {c off len : ℕ}

theorem SharedChunk.ne_single (h : SharedChunk L.toLayout s tf c) (f : TorrentFile) :
    L.overlapping c ≠ [f] := by
  intro hl
  obtain ⟨g, hg, hne, -⟩ := h.other
  have htf := h.mem
  rw [hl, List.mem_singleton] at hg htf
  exact hne (hg.trans htf.symm)

/-- The visits of a piece of a shared chunk to the excluded file. -/
theorem SharedChunk.visit (h : SharedChunk L.toLayout s tf c) (hcs : L.chunkSize < 2 ^ 32)
    (htf : tf ∈ L.files) (hin : off + len ≤ L.sizeOfChunk c) {v : PieceVisit}
    (hv : v ∈ pieceWalk c L.chunkSize off len 0 (L.partsOf c))
    (hidx : v.part.file.index = tf.index) : SharedVisit L.toLayout tf c off len v := by
  have hsize := (L.sizeOfChunk_le c).trans_lt hcs
  obtain ⟨hmem, hexact⟩ := pieceWalk_exact L.toLayout h.chunk_lt hsize hin hv
  have hover := L.file_mem_of_mem_partsOf hmem
  obtain ⟨g, hg, hne, -⟩ := h.other
  exact ⟨h.chunk_lt, hin, L.index_inj (List.mem_of_mem_filter hover) htf hidx, hmem, hexact,
    g, hg, hne⟩

/-- Loading a piece of a shared chunk is the walk over its parts. -/
theorem SharedChunk.loadPiece_iff (h : SharedChunk L.toLayout s tf c) (hcs : L.chunkSize < 2 ^ 32)
    (cache : PosCache L.toLayout) (mem : ℕ → UInt8) (s' : MultiFileCache) (piece : List UInt8) :
    (loadPiece L.toLayout cache mem c off len s').1 = .ok (some piece) ↔
      (loadVisits L.chunkSize c (pieceWalk c L.chunkSize off len 0 (L.partsOf c))
        (uninit mem len) s').1 = .ok piece := by
  have hsize := (L.sizeOfChunk_le c).trans_lt hcs
  have hcreated : pieceCreated L.toLayout cache c s' = true := by
    rw [pieceCreated, chunkFiles_eq L.toLayout cache h.chunk_lt]
    split
    · exact absurd ‹_› (h.ne_single _)
    · rfl
  rw [loadPiece, if_pos hcreated, loadPieceVisits_eq L.toLayout cache h.chunk_lt hsize h.ne_single]
  cases hload : loadVisits L.chunkSize c (pieceWalk c L.chunkSize off len 0 (L.partsOf c))
      (uninit mem len) s' with
  | mk r s'' =>
    cases r with
    | error e => simp
    | ok bytes => simp

/-- **A piece of a shared chunk is the same before and after.** -/
theorem loadPiece_exclude (hns : ¬ StartsChunk L.toLayout tf) (hcs : L.chunkSize < 2 ^ 32)
    (htf : tf ∈ L.files) (cache cache' : PosCache L.toLayout) (tmp mem : ℕ → UInt8)
    (hd : (s tf.index).Downloaded) (h : SharedChunk L.toLayout s tf c)
    (hin : off + len ≤ L.sizeOfChunk c) {piece : List UInt8}
    (hload : (loadPiece L.toLayout cache mem c off len s).1 = .ok (some piece)) :
    (loadPiece L.toLayout cache' mem c off len
      (downloadStatusChanged L.toLayout tf false tmp s)).1 = .ok (some piece) := by
  rw [h.loadPiece_iff hcs] at hload ⊢
  obtain ⟨dnd, hex, hm⟩ := mirrors_exclude hns htf (sizes_of_mem hcs htf) tmp hd
  -- the downloaded file on one side, its DND file on the other
  let R := fun a b : FileSlot => a = s tf.index ∧ b.Excluded dnd
  refine loadVisits_congr (t := tf.index) R _ _ s _ ?_ ?_ ?_ piece hload
  · rintro v hv hidx a b ⟨rfl, hb⟩ bytes a' hread
    obtain ⟨rfl, rfl⟩ := hm.read hns hcs htf (h.visit hcs htf hin hv hidx) hd.fd hread
    exact ⟨b, hb.read L.chunkSize c v, rfl, hb⟩
  · intro i hi
    rw [downloadStatusChanged, Function.update_of_ne hi]
  · refine ⟨rfl, ?_⟩
    rw [downloadStatusChanged, Function.update_self]
    exact hex

/-! ## Storing pieces -/

/-- A visit that stays inside its file never fails. -/
theorem FileSlot.write_ok (slot : FileSlot) {cs c : ℕ} {v : PieceVisit} {piece : List UInt8}
    (h : v.off + piece.length ≤ v.part.file.size) (hlt : v.part.file.size < 2 ^ 64) :
    (slot.write cs c v piece).1 = .ok () := by
  simp only [FileSlot.write]
  split
  · rw [CacheFile.write, u64_of_lt (by omega), if_neg (by omega)]
  · split <;> rfl

/-- Storing a piece twice at the same place is storing it once. -/
theorem storePiece_idem (a : ℕ) (data : List UInt8) (stored : ℕ → Option UInt8) :
    storePiece a data (storePiece a data stored) = storePiece a data stored := by
  funext x
  simp only [storePiece]
  split
  · rfl
  · rfl

/-- The writes to the excluded file, one after the other. -/
theorem mirrors_foldl_write (hns : ¬ StartsChunk L.toLayout tf) (hcs : L.chunkSize < 2 ^ 32)
    (htf : tf ∈ L.files) {data : List UInt8} {stored : ℕ → Option UInt8} :
    ∀ (vs : List PieceVisit) (slot : FileSlot) (dnd : List UInt8),
    (∀ v ∈ vs, SharedVisit L.toLayout tf c off data.length v) → slot.Excluded dnd →
    (vs = [] ∧ Mirrors L.toLayout tf (storePiece (c * L.chunkSize + off) data stored) dnd ∨
      vs ≠ [] ∧ ∃ st, Mirrors L.toLayout tf st dnd ∧
        storePiece (c * L.chunkSize + off) data st =
          storePiece (c * L.chunkSize + off) data stored) →
    ∃ dnd', (vs.foldl (fun slot v =>
        (slot.write L.chunkSize c v (readAt data v.pieceOff v.len)).2) slot).Excluded dnd' ∧
      Mirrors L.toLayout tf (storePiece (c * L.chunkSize + off) data stored) dnd' := by
  intro vs
  induction vs with
  | nil =>
    intro slot dnd _ hex hm
    rcases hm with ⟨-, hm⟩ | ⟨hne, -⟩
    · exact ⟨dnd, hex, hm⟩
    · exact absurd rfl hne
  | cons v vs ih =>
    intro slot dnd hvs hex hm
    rcases hm with ⟨hnil, -⟩ | ⟨-, st, hm, hst⟩
    · simp at hnil
    have hv := hvs v (by simp)
    have hm' := hm.write hns hcs htf hv
    rw [hst] at hm'
    rw [List.foldl_cons]
    refine ih _ _ (fun w hw => hvs w (by simp [hw]))
      (hex.write L.chunkSize c v (readAt data v.pieceOff v.len)) ?_
    by_cases hnil : vs = []
    · exact .inl ⟨hnil, hm'⟩
    · exact .inr ⟨hnil, _, hm', storePiece_idem ..⟩

/-- **Storing a piece of a shared chunk** updates the DND file. -/
theorem mirrors_savePiece (hns : ¬ StartsChunk L.toLayout tf) (hcs : L.chunkSize < 2 ^ 32)
    (htf : tf ∈ L.files) {w : Save L.toLayout} {s₀ : MultiFileCache}
    (h : SharedChunk L.toLayout s₀ tf w.chunk)
    (hin : w.off + w.data.length ≤ L.sizeOfChunk w.chunk) {stored : ℕ → Option UInt8}
    {dnd : List UInt8} (hex : (s tf.index).Excluded dnd) (hm : Mirrors L.toLayout tf stored dnd) :
    ∃ dnd', ((savePiece L.toLayout w.cache w.chunk w.off w.data s).2 tf.index).Excluded dnd' ∧
      Mirrors L.toLayout tf (Save.store stored w) dnd' := by
  have hc := h.chunk_lt
  have hsize := (L.sizeOfChunk_le w.chunk).trans_lt hcs
  rw [savePiece, savePieceVisits_eq L.toLayout w.cache hc hsize, saveVisits_slot w.data tf.index]
  · refine mirrors_foldl_write hns hcs htf _ _ dnd ?_ hex ?_
    · intro v hv
      obtain ⟨hv, hidx⟩ := List.mem_filter.1 hv
      exact h.visit hcs htf hin hv (by simpa using hidx)
    · by_cases hnil : (pieceWalk w.chunk L.chunkSize w.off w.data.length 0
          (L.partsOf w.chunk)).filter (·.part.file.index = tf.index) = []
      · -- the piece has no byte in the file
        refine .inl ⟨hnil, fun p hp b hb => hm p hp b ?_⟩
        rw [← hb, storePiece, if_neg]
        intro hx
        have hsz := hp.1
        obtain ⟨v, hv, hvf⟩ := pieceWalk_complete L.toLayout hc hsize hin htf
          (x := tf.cacheOffset + p) ⟨by omega, by simp only [TorrentFile.stop]; omega⟩ hx
        have : v ∈ (pieceWalk w.chunk L.chunkSize w.off w.data.length 0
            (L.partsOf w.chunk)).filter (·.part.file.index = tf.index) :=
          List.mem_filter.2 ⟨hv, by simp [hvf]⟩
        rw [hnil] at this
        simp at this
      · exact .inr ⟨hnil, stored, hm, rfl⟩
  · intro v hv slot
    obtain ⟨hmem, hexact⟩ := pieceWalk_exact L.toLayout hc hsize hin hv
    have hfile := List.mem_of_mem_filter (L.file_mem_of_mem_partsOf hmem)
    have hstop := (L.exact_of_mem hfile).stop_lt
    have hoff := hexact.off
    have hlen := hexact.len
    have hle := hexact.le
    have hrlen := length_readAt w.data v.pieceOff v.len
    simp only [TorrentFile.stop] at hstop hlen hle
    exact slot.write_ok (by omega) (by omega)

theorem mirrors_savePieces (hns : ¬ StartsChunk L.toLayout tf) (hcs : L.chunkSize < 2 ^ 32)
    (htf : tf ∈ L.files) {s₀ : MultiFileCache} : ∀ (saves : List (Save L.toLayout))
    (s : MultiFileCache) (stored : ℕ → Option UInt8) (dnd : List UInt8),
    (∀ w ∈ saves, SharedChunk L.toLayout s₀ tf w.chunk ∧
      w.off + w.data.length ≤ L.sizeOfChunk w.chunk) →
    (s tf.index).Excluded dnd → Mirrors L.toLayout tf stored dnd →
    ∃ dnd', (savePieces L.toLayout saves s tf.index).Excluded dnd' ∧
      Mirrors L.toLayout tf (saves.foldl Save.store stored) dnd' := by
  intro saves
  induction saves with
  | nil => intro s stored dnd _ hex hm; exact ⟨dnd, hex, hm⟩
  | cons w saves ih =>
    intro s stored dnd hw hex hm
    obtain ⟨h, hin⟩ := hw w (by simp)
    obtain ⟨dnd', hex', hm'⟩ := mirrors_savePiece hns hcs htf h hin hex hm
    rw [savePieces, List.foldl_cons, List.foldl_cons]
    exact ih _ _ dnd' (fun w' hw' => hw w' (by simp [hw'])) hex' hm'

/-- **The recreated file has the bytes last stored.** -/
theorem recreate_stored (hns : ¬ StartsChunk L.toLayout tf) (hcs : L.chunkSize < 2 ^ 32)
    (htf : tf ∈ L.files) (tmp tmp' : ℕ → UInt8) (saves : List (Save L.toLayout))
    (hd : (s tf.index).Downloaded)
    (hsaves : ∀ w ∈ saves, SharedChunk L.toLayout s tf w.chunk ∧
      w.off + w.data.length ≤ L.sizeOfChunk w.chunk) :
    ∃ data, (downloadStatusChanged L.toLayout tf true tmp' (savePieces L.toLayout saves
        (downloadStatusChanged L.toLayout tf false tmp s)) tf.index).data = some data ∧
      ∀ p, SharedByte L.toLayout tf p → ∀ b,
        saves.foldl Save.store (storedBytes tf (s tf.index)) (tf.cacheOffset + p) = some b →
          data[p]? = some b := by
  obtain ⟨dnd, hex, hm⟩ := mirrors_exclude hns htf (sizes_of_mem hcs htf) tmp hd
  have hex' : (downloadStatusChanged L.toLayout tf false tmp s tf.index).Excluded dnd := by
    rw [downloadStatusChanged, Function.update_self]
    exact hex
  obtain ⟨dnd', hex'', hm'⟩ := mirrors_savePieces hns hcs htf saves _ _ dnd hsaves hex' hm
  refine ⟨recreateFile L.toLayout tf (some dnd'), ?_, fun p hp b hb =>
    hm'.recreate hns hcs htf hp hb⟩
  rw [downloadStatusChanged, Function.update_self, if_pos rfl, FileSlot.include_, hex''.data,
    hex''.dnd]
  rfl

end Pieces

/-! ## A file that starts with a chunk it does not fill -/

section Lost

variable {L : DataLayout} {tf : TorrentFile}

theorem pieceWalk_eq_nil {c cs off len pieceOff : ℕ} {ps : List ChunkPart}
    (h : ∀ p ∈ ps, u32 (off + len) ≤ p.passed) : pieceWalk c cs off len pieceOff ps = [] := by
  induction ps with
  | nil => rfl
  | cons p ps ih =>
    rw [pieceWalk, if_pos (.inl (h p (by simp)))]
    exact ih fun q hq => h q (by simp [hq])

/-- The first byte of the chunk is the first byte of the file. -/
theorem StartsChunk.firstVisit (h : StartsChunk L.toLayout tf) (hcs : L.chunkSize < 2 ^ 32)
    (htf : tf ∈ L.files) :
    ∃ part, part.file = tf ∧ part.pos = 0 ∧ part.fileOff tf.firstChunk L.chunkSize = 0 ∧
      pieceWalk tf.firstChunk L.chunkSize 0 1 0 (L.partsOf tf.firstChunk) = [⟨part, 0, 1, 0⟩] := by
  have hpos := L.size_pos htf
  obtain ⟨hc, hcache, g, gs, hl, hcov⟩ := h.overlapping htf hpos
  have hsz := L.sizeOfChunk_le tf.firstChunk
  have hbound := (L.chunk_bounds hc).2
  have hparts := (overlapping_parts L.toLayout hc le_rfl
    (by omega : L.sizeOfChunk tf.firstChunk < 2 ^ 32)).2
  have hsize := h.2
  have hstop : tf.stop = tf.cacheOffset + tf.size := rfl
  set c := tf.firstChunk
  rw [Layout.partsOf, hl, exactParts] at *
  set part : ChunkPart := ⟨0, tf, c * L.chunkSize - c * L.chunkSize,
    min (L.chunkStop c) tf.stop - c * L.chunkSize⟩ with hpart
  have hp := hparts part (by simp)
  have hpassed : part.passed = 0 := Nat.sub_self _
  have hplen : part.len = tf.size := by
    show min (L.chunkStop c) tf.stop - c * L.chunkSize = tf.size
    omega
  have hmeet : ¬ (0 + 1 ≤ part.passed ∨ part.passed + part.len ≤ 0) := by omega
  refine ⟨part, rfl, rfl, ?_, ?_⟩
  · have := hp.fileOff
    simp only [hpart] at this ⊢
    omega
  · rw [pieceWalk, u32_of_lt (n := 0 + 1) (by decide), u32_of_lt (n := part.passed + part.len)
      (by omega), if_neg hmeet, calculateOffsetAndLength_eq hp (by omega) (by omega) hmeet]
    have hoff : max (c * L.chunkSize + 0) part.file.cacheOffset - part.file.cacheOffset = 0 := by
      show max (c * L.chunkSize + 0) tf.cacheOffset - tf.cacheOffset = 0
      omega
    have hlen : min (c * L.chunkSize + 0 + 1) part.file.stop -
        max (c * L.chunkSize + 0) part.file.cacheOffset = 1 := by
      show min (c * L.chunkSize + 0 + 1) tf.stop - max (c * L.chunkSize + 0) tf.cacheOffset = 1
      omega
    simp only [hoff, hlen]
    rw [pieceWalk_eq_nil]
    intro q hq
    -- the other files come behind the first one
    have hqpassed := (hparts q (by simp [hq])).passed
    have hbehind := (exactParts_behind (g :: gs) 1 tf.stop hcov Nat.one_pos q hq).2
    rw [u32_of_lt (by decide)]
    omega

/-- The DND file of a file in one chunk ends in front of the area of the last
chunk. -/
theorem length_saveFirstAndLastChunk (hcs : L.chunkSize < 2 ^ 32) (htf : tf ∈ L.files)
    (hfl : tf.firstChunk = tf.lastChunk) (mem : ℕ → UInt8) (data : List UInt8) :
    (saveFirstAndLastChunk L.toLayout tf mem data none).length ≤
      DndFile.hdrSize + (DndFile.new tf L.chunkSize).firstSize := by
  have sz := sizes_of_mem hcs htf
  have hfs := sz.firstSize
  have hfb := sz.firstBytes
  have hroom := L.chunkStop_le tf.firstChunk
  simp only [saveFirstAndLastChunk, hfl, ne_eq, not_true, if_false, DndFile.writeFirstChunk,
    Nat.add_zero, Option.getD_none]
  set buf := readAt (writeAt 0 (uninit mem L.chunkSize) 0
    (readAt data 0 (firstChunkBytes L.toLayout tf))) 0 (firstChunkBytes L.toLayout tf) with hbuf
  have hlen : buf.length ≤ firstChunkBytes L.toLayout tf := by
    rw [hbuf, length_readAt]
    exact min_le_left _ _
  by_cases hnil : buf = []
  · rw [hnil, writeAt_nil, DndFile.length_create]
    omega
  · rw [length_writeAt _ _ _ hnil, DndFile.length_create]
    omega

/-- **The bytes are lost**: they are saved to the area of the first chunk and
looked for in that of the last one. -/
theorem StartsChunk.not_keepsSharedBytes (h : StartsChunk L.toLayout tf)
    (hcs : L.chunkSize < 2 ^ 32) (htf : tf ∈ L.files) : ¬ KeepsSharedBytes L.toLayout tf := by
  intro hkeep
  have hpos := L.size_pos htf
  obtain ⟨hc, hcache, g, gs, hl, hcov⟩ := h.overlapping htf hpos
  obtain ⟨part, hpart, hppos, hpoff, hwalk⟩ := h.firstVisit hcs htf
  have hex := L.exact_of_mem htf
  have hbound := (L.chunk_bounds hc).2
  have hroom := L.chunkStop_le tf.firstChunk
  have hsize := h.2
  have hfl : tf.firstChunk = tf.lastChunk := by
    rw [hex.lastChunk, if_pos hpos]
    exact (Nat.div_eq_of_lt_le (by simp only [TorrentFile.stop]; omega)
      (by simp only [TorrentFile.stop]; omega)).symm
  have hg : g ∈ L.overlapping tf.firstChunk := by rw [hl]; simp
  have hgne : g ≠ tf := by
    rintro rfl
    have := hcov.1
    simp only [TorrentFile.stop] at this
    omega
  -- every file is downloaded and has zeros
  let slot : FileSlot := ⟨some (List.replicate tf.size 0), none, none, true, false⟩
  let s : MultiFileCache := fun _ => slot
  have hd : (s tf.index).Downloaded := ⟨rfl, rfl, rfl, rfl⟩
  have hsh : SharedChunk L.toLayout s tf tf.firstChunk := ⟨hc, by rw [hl]; simp, g, hg, hgne, rfl⟩
  have hafter := hkeep.load s (PosCache.new _) (PosCache.new _) (fun _ => 0) (fun _ => 1)
    tf.firstChunk 0 1 hd hsh (by omega) [0]
  rw [hsh.loadPiece_iff hcs, hsh.loadPiece_iff hcs, hwalk] at hafter
  -- before, the byte comes from the file
  have hbefore : (loadVisits L.chunkSize tf.firstChunk [⟨part, 0, 1, 0⟩] (uninit (fun _ => 1) 1)
      s).1 = .ok [0] := by
    have hread : slot.read L.chunkSize tf.firstChunk ⟨part, 0, 1, 0⟩ = (.ok [0], slot) := by
      obtain ⟨n, hn⟩ : ∃ n, tf.size = n + 1 := ⟨tf.size - 1, by omega⟩
      simp [slot, FileSlot.read, CacheFile.read, CacheFile.openFile, hpart, hn, readAt,
        List.replicate_succ]
    have hslot : s part.file.index = slot := rfl
    exact loadVisits_single hslot hread
  have hlost := hafter hbefore
  -- after, the area of the last chunk has no byte
  have hexcl : (slot.exclude L.toLayout tf fun _ => 0).Excluded
      (saveFirstAndLastChunk L.toLayout tf (fun _ => 0) (List.replicate tf.size 0) none) := by
    refine ⟨rfl, rfl, ?_, rfl⟩
    show some (DndFile.checkIntegrity _ (some _)) = _
    rw [(hasHeader_saveFirstAndLastChunk _ _).checkIntegrity]
  have hread := hexcl.read L.chunkSize tf.firstChunk ⟨part, 0, 1, 0⟩
  have hlen := length_saveFirstAndLastChunk hcs htf hfl (fun _ => 0) (List.replicate tf.size 0)
  have harea : DndFile.hdrSize + (DndFile.new tf L.chunkSize).firstSize ≤
      PieceVisit.areaPos L.chunkSize tf.firstChunk ⟨part, 0, 1, 0⟩ := by
    rw [PieceVisit.areaPos, if_pos hppos, hpart]
    exact Nat.le_add_right _ _
  have hempty : readAt (saveFirstAndLastChunk L.toLayout tf (fun _ => 0)
      (List.replicate tf.size 0) none)
      (PieceVisit.areaPos L.chunkSize tf.firstChunk ⟨part, 0, 1, 0⟩) 1 = [] := by
    rw [readAt, List.drop_eq_nil_of_le (hlen.trans harea)]
    rfl
  simp only [hempty] at hread
  have hslot : downloadStatusChanged L.toLayout tf false (fun _ => 0) s part.file.index =
      slot.exclude L.toLayout tf fun _ => 0 := by
    rw [downloadStatusChanged, hpart, Function.update_self]
    rfl
  rw [loadVisits_single hslot hread, writeAt_nil] at hlost
  simp [uninit] at hlost

/-- **Excluding a file keeps the bytes its neighbours need** exactly when it does
not start with a chunk that it leaves to other files before the end. -/
theorem keepsSharedBytes_iff (hcs : L.chunkSize < 2 ^ 32) (htf : tf ∈ L.files) :
    KeepsSharedBytes L.toLayout tf ↔ ¬ StartsChunk L.toLayout tf := by
  constructor
  · intro hkeep h
    exact h.not_keepsSharedBytes hcs htf hkeep
  · intro hns
    constructor
    · intro s cache cache' tmp mem c off len hd h hin piece hload
      exact loadPiece_exclude hns hcs htf cache cache' tmp mem hd h hin hload
    · intro s tmp tmp' saves hd hsaves
      obtain ⟨data, hdata, hbytes⟩ := recreate_stored hns hcs htf tmp tmp' saves hd hsaves
      exact ⟨data, hdata, fun p hp hother => hbytes p ⟨hp, hother⟩⟩

end Lost

/-- Two files of six bytes in chunks of four: they share the second chunk. -/
def sharedMiddle : DataLayout where
  chunkSize := 4
  sizes := [6, 6]
  chunkSize_pos := Layout.small_pos
  chunkSize_lt := Layout.small_lt
  total_lt := by decide
  count_lt := by decide
  chunks_lt := by decide
  sizes_pos := by decide

/-- Both files of `sharedMiddle` can be excluded and included again. -/
theorem keepsSharedBytes_sharedMiddle :
    sharedMiddle.chunkSize < 2 ^ 32 ∧
      KeepsSharedBytes sharedMiddle.toLayout (TorrentFile.new 0 0 6 4) ∧
      KeepsSharedBytes sharedMiddle.toLayout (TorrentFile.new 1 6 6 4) :=
  ⟨by decide, (keepsSharedBytes_iff (L := sharedMiddle) (by decide) (by decide)).2 (by decide),
    (keepsSharedBytes_iff (L := sharedMiddle) (by decide) (by decide)).2 (by decide)⟩

/-- Two files of two bytes in one chunk. -/
def sharedStart : DataLayout where
  chunkSize := 4
  sizes := [2, 2]
  chunkSize_pos := Layout.small_pos
  chunkSize_lt := Layout.small_lt
  total_lt := by decide
  count_lt := by decide
  chunks_lt := by decide
  sizes_pos := by decide

/-- **The first file of `sharedStart` loses its bytes.**  Once it is excluded, its
part of the chunk is read from the area of the last chunk, which is not there:
the buffer keeps what was in memory. -/
theorem sharedStart_loses_bytes :
    ¬ KeepsSharedBytes sharedStart.toLayout (TorrentFile.new 0 0 2 4) := by
  intro h
  let slot : FileSlot := ⟨some [5, 6], none, none, true, false⟩
  have hshared : SharedChunk sharedStart.toLayout (fun _ => slot) (TorrentFile.new 0 0 2 4) 0 :=
    ⟨by decide, by decide, TorrentFile.new 1 2 2 4, by decide, by decide, rfl⟩
  have hload := h.load (fun _ => slot) (PosCache.new _) (PosCache.new _) (fun _ => 0) (fun _ => 1)
    0 0 4 ⟨rfl, rfl, rfl, rfl⟩ hshared (by decide) [5, 6, 5, 6] (by decide +kernel)
  revert hload
  decide +kernel

end KTorrent
