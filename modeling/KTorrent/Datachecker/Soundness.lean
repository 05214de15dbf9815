import KTorrent.Datachecker.SingleDataChecker
import KTorrent.Datachecker.MultiDataChecker

/-!
# When a data check can be trusted

Both checkers reuse one buffer.  `dataCheck_sound_iff` says exactly on which disks
the verdict of a chunk never rests on bytes that an earlier chunk left in it.
-/

namespace KTorrent

/-- **The verdicts of a data check are right**, whatever the hashes of the torrent
are, exactly when:

* for a single file, every checked chunk is all there;
* for several files, the check throws, or no checked chunk is complete but for the
  part of an excluded file. -/
theorem dataCheck_sound_iff {H : Type} [DecidableEq H] (L : Layout) (hcs : L.chunkSize < 2 ^ 32)
    (sha1 : List UInt8 → H) (current : ℕ → Bool) (mem : ℕ → UInt8) (from_ to_ : ℕ)
    (stop : ℕ → Bool) :
    (∀ data : Option DiskFile,
      (∀ hash : ℕ → H, CheckSound ⟨sha1, hash, current, true⟩ (singleOnDisk L data)
        (checkedChunks L.numChunks from_ to_ stop)
        (checkSingle L data mem ⟨sha1, hash, current, true⟩ from_ to_ stop)) ↔
      ∀ file, data = some file → L.numChunks = 0 ∨
        ∀ i ∈ checkedChunks L.numChunks from_ to_ stop, HasChunk L file i) ∧
    (∀ (cache : ℕ → PosCache L) (disk : ℕ → CheckedFile),
      (∀ hash : ℕ → H, CheckSound ⟨sha1, hash, current, false⟩ (multiOnDisk L disk)
        (checkedChunks L.numChunks from_ to_ stop)
        (checkMulti L cache disk mem ⟨sha1, hash, current, false⟩ from_ to_ stop)) ↔
      L.numChunks = 0 ∨ (∃ i ∈ checkedChunks L.numChunks from_ to_ stop, MissingFile L disk i) ∨
        ∀ i ∈ checkedChunks L.numChunks from_ to_ stop, ¬ MissingDndPart L disk i) :=
  ⟨fun data => checkSingle_sound sha1 current hcs data mem from_ to_ stop,
    fun cache _ => checkMulti_sound sha1 current hcs cache mem from_ to_ stop⟩

/-- One file in two chunks of four bytes. -/
def twoChunks : Layout where
  chunkSize := 4
  sizes := [8]
  chunkSize_pos := Layout.small_pos
  chunkSize_lt := Layout.small_lt
  total_lt := by decide
  count_lt := by decide
  chunks_lt := by decide

/-- A file of ones. -/
def onesFile (n : ℕ) (h : n < 2 ^ 63) : DiskFile where
  bytes := List.replicate n 1
  length_lt := by simpa using h

/-- SHA-1 of the one input that is hashed here. -/
def sha1OfOnes (bytes : List UInt8) : List UInt8 :=
  if bytes = [1, 1, 1, 1] then
    [0xa9, 0x37, 0x55, 0xf8, 0x27, 0x3b, 0x0e, 0x8d, 0xc4, 0xb0, 0xec, 0xc1, 0x58, 0xe5, 0x85,
      0x31, 0x19, 0xa2, 0x4b, 0xf0]
  else []

/-- A check of a complete file is sound. -/
theorem dataCheck_sound_onesFile : twoChunks.chunkSize < 2 ^ 32 ∧
    CheckSound ⟨sha1OfOnes, fun _ => sha1OfOnes [1, 1, 1, 1], fun _ => false, true⟩
      (singleOnDisk twoChunks (some (onesFile 8 (by decide)))) (checkedChunks 2 0 1 fun _ => false)
      (checkSingle twoChunks (some (onesFile 8 (by decide))) (fun _ => 0)
        ⟨sha1OfOnes, fun _ => sha1OfOnes [1, 1, 1, 1], fun _ => false, true⟩ 0 1 fun _ => false) := by
  refine ⟨by decide, ?_⟩
  refine ((dataCheck_sound_iff twoChunks (by decide) sha1OfOnes (fun _ => false) (fun _ => 0) 0 1
    fun _ => false).1 (some (onesFile 8 (by decide)))).2 ?_ _
  rintro file hfile
  obtain rfl := Option.some.inj hfile
  exact .inr (by decide)

/-- **A chunk that is not there passes the check.**  The file ends behind its
first chunk; the read of the second one returns nothing, and the buffer still has
the first one. -/
theorem missing_chunk_passes :
    ¬ CheckSound ⟨sha1OfOnes, fun _ => sha1OfOnes [1, 1, 1, 1], fun _ => false, true⟩
      (singleOnDisk twoChunks (some (onesFile 4 (by decide)))) (checkedChunks 2 0 1 fun _ => false)
      (checkSingle twoChunks (some (onesFile 4 (by decide))) (fun _ => 0)
        ⟨sha1OfOnes, fun _ => sha1OfOnes [1, 1, 1, 1], fun _ => false, true⟩ 0 1 fun _ => false) := by
  intro h
  obtain ⟨hbits, -⟩ := h _ rfl
  have hbit := (hbits 1 (by decide)).1 (by decide)
  obtain ⟨bytes, hbytes, -⟩ := hbit
  revert hbytes
  have hnone : singleOnDisk twoChunks (some (onesFile 4 (by decide))) 1 = none := by decide
  simp [hnone]

end KTorrent
