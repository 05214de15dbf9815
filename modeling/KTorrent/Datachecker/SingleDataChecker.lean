import KTorrent.Datachecker.DataChecker
import KTorrent.Diskio.DataFiles

/-!
# The data checker for a single file

`SingleDataChecker::check` does not look at how much was read: the rest of the
buffer is what the chunk before left there.  Only the next chunk is found to be
behind the end of the file.

* `loadSingle_provided` — a chunk that is all there is hashed as it is.
* `checkSingle_sound` — the check is sound exactly when every checked chunk is
  all there.
-/

namespace KTorrent

open ByteFile

/-- What the loop keeps from chunk to chunk. -/
structure SingleState where
  /-- The buffer. -/
  buf : List UInt8
  /-- The position in the file. -/
  pos : ℕ
  /-- `fptr.eof()`: the last read met the end of the file. -/
  eof : Bool

/-- One turn of the loop of `SingleDataChecker::check`, up to the hash. -/
def loadSingle (L : Layout) (data : DiskFile) (i : ℕ) (st : SingleState) :
    Except CheckError (Option (List UInt8) × SingleState) :=
  if st.eof then .ok (none, st)
  else
    let size := u32 (if i = sub32 L.numChunks 1 then L.lastChunkSize else L.chunkSize)
    let pos := seek st.pos (u64 (i * L.chunkSize))
    let read := readAt data.bytes pos size
    let buf := writeAt 0 st.buf 0 read
    if i ≥ L.numChunks then .error .noHash
    else .ok (some (readAt buf 0 size), ⟨buf, pos + read.length, decide (read.length < size)⟩)

/-- `SingleDataChecker::check`. -/
def checkSingle {H : Type} [DecidableEq H] (L : Layout) (data : Option DiskFile) (mem : ℕ → UInt8)
    (input : CheckInput H) (from_ to_ : ℕ) (stop : ℕ → Bool) : Except CheckError CheckResult :=
  match data with
  | none => .error .cannotOpen
  | some file =>
    checkChunks input (loadSingle L file) (checkedChunks L.numChunks from_ to_ stop)
      ⟨uninit mem (u32 L.chunkSize), 0, false⟩ .new

/-- The file has all bytes of the chunk. -/
def HasChunk (L : Layout) (file : DiskFile) (i : ℕ) : Prop :=
  i * L.chunkSize + L.sizeOfChunk i ≤ file.bytes.length

instance (L : Layout) (file : DiskFile) (i : ℕ) : Decidable (HasChunk L file i) :=
  inferInstanceAs (Decidable (_ ≤ _))

/-- The bytes the file has of a chunk, if they are all there. -/
def singleOnDisk (L : Layout) (data : Option DiskFile) (i : ℕ) : Option (List UInt8) :=
  match data with
  | none => none
  | some file =>
    if HasChunk L file i then some (readAt file.bytes (i * L.chunkSize) (L.sizeOfChunk i)) else none

/-! ## Loading -/

section Single

variable {L : Layout} {file : DiskFile} {i : ℕ} {st : SingleState}

/-- The size the checker gives a chunk. -/
theorem singleSize_eq (hcs : L.chunkSize < 2 ^ 32) (hi : i < L.numChunks) :
    u32 (if i = sub32 L.numChunks 1 then L.lastChunkSize else L.chunkSize) = L.sizeOfChunk i := by
  have hle := L.sizeOfChunk_le i
  rw [sub32_of_le (by omega) L.numChunks_lt, ← Layout.sizeOfChunk, u32_of_lt (by omega)]

/-- A chunk that is all there is hashed as it is, and the end of the file was not
met. -/
theorem loadSingle_provided (hcs : L.chunkSize < 2 ^ 32) (hi : i < L.numChunks)
    (heof : st.eof = false) (h : HasChunk L file i) :
    ∃ st', loadSingle L file i st = .ok (singleOnDisk L (some file) i, st') ∧ st'.eof = false := by
  have hlen := file.length_lt
  have hpos := L.sizeOfChunk_pos i
  have hread : (readAt file.bytes (i * L.chunkSize) (L.sizeOfChunk i)).length = L.sizeOfChunk i := by
    rw [length_readAt]
    simp only [HasChunk] at h
    omega
  have hseek : seek st.pos (u64 (i * L.chunkSize)) = i * L.chunkSize := by
    simp only [HasChunk] at h
    rw [u64_of_lt (by omega), seek_of_lt _ (by omega)]
  -- the read fills the buffer as far as it is hashed
  have hbuf := readAt_writeAt 0 st.buf 0 (readAt file.bytes (i * L.chunkSize) (L.sizeOfChunk i))
  rw [hread] at hbuf
  rw [loadSingle, heof]
  simp only [Bool.false_eq_true, if_false, singleSize_eq hcs hi, hseek, if_neg (by omega : ¬ i ≥ L.numChunks),
    hread, lt_irrefl, decide_false]
  rw [hbuf, singleOnDisk, if_pos h]
  exact ⟨_, rfl, rfl⟩

/-- Before the end of the file was met, any chunk is hashed. -/
theorem loadSingle_some (file : DiskFile) (hi : i < L.numChunks) (heof : st.eof = false) :
    ∃ bytes st', loadSingle L file i st = .ok (some bytes, st') := by
  rw [loadSingle, heof]
  simp only [Bool.false_eq_true, if_false, if_neg (by omega : ¬ i ≥ L.numChunks)]
  exact ⟨_, _, rfl⟩

theorem loadSingle_ok (file : DiskFile) (st : SingleState) (hi : i < L.numChunks) : ∃ r, loadSingle L file i st = .ok r := by
  cases heof : st.eof with
  | true =>
    rw [loadSingle, heof]
    exact ⟨_, rfl⟩
  | false =>
    obtain ⟨bytes, st', h⟩ := loadSingle_some file hi heof
    exact ⟨_, h⟩

theorem loadedChunks_single_ok (file : DiskFile) : ∀ (is : List ℕ) (st : SingleState),
    (∀ i ∈ is, i < L.numChunks) → ∃ ls, loadedChunks (loadSingle L file) is st = .ok ls := by
  intro is
  induction is with
  | nil => intros; exact ⟨[], rfl⟩
  | cons i is ih =>
    intro st h
    obtain ⟨⟨bytes, st'⟩, hload⟩ := loadSingle_ok file st (h i (by simp))
    obtain ⟨ls, hls⟩ := ih st' fun j hj => h j (by simp [hj])
    exact ⟨(i, bytes) :: ls, by rw [loadedChunks, hload]; simp only [hls]; rfl⟩

/-- **The first chunk that is not all there is hashed all the same.** -/
theorem loadedChunks_single_iff {H : Type} (sha1 : List UInt8 → H) (hcs : L.chunkSize < 2 ^ 32)
    (file : DiskFile) : ∀ (is : List ℕ) (st : SingleState), st.eof = false →
    (∀ i ∈ is, i < L.numChunks) → ∀ ls, loadedChunks (loadSingle L file) is st = .ok ls →
    ((∀ l ∈ ls, l.2.map sha1 = (singleOnDisk L (some file) l.1).map sha1) ↔
      ∀ i ∈ is, HasChunk L file i) := by
  intro is
  induction is with
  | nil =>
    intro st _ _ ls hls
    obtain rfl : [] = ls := by simpa [loadedChunks] using hls
    simp
  | cons i is ih =>
    intro st heof h ls hls
    have hi := h i (by simp)
    have hrest : ∀ j ∈ is, j < L.numChunks := fun j hj => h j (by simp [hj])
    rw [loadedChunks] at hls
    by_cases hhas : HasChunk L file i
    · obtain ⟨st', hload, heof'⟩ := loadSingle_provided hcs hi heof hhas
      obtain ⟨ls', hls'⟩ := loadedChunks_single_ok file is st' hrest
      obtain rfl : _ :: ls' = ls := by simpa [hload, hls', Except.map] using hls
      rw [List.forall_mem_cons, List.forall_mem_cons, ih st' heof' hrest ls' hls']
      exact and_congr_left fun _ => iff_of_true rfl hhas
    · obtain ⟨bytes, st', hload⟩ := loadSingle_some file hi heof
      obtain ⟨ls', hls'⟩ := loadedChunks_single_ok file is st' hrest
      obtain rfl : _ :: ls' = ls := by simpa [hload, hls', Except.map] using hls
      refine iff_of_false (fun hall => ?_) fun hall => hhas (hall i (by simp))
      have := hall (i, some bytes) (by simp)
      simp [singleOnDisk, hhas] at this

/-- **The check of a single file is sound** for all hashes exactly when every
checked chunk is all there. -/
theorem checkSingle_sound {H : Type} [DecidableEq H] (sha1 : List UInt8 → H) (current : ℕ → Bool)
    (hcs : L.chunkSize < 2 ^ 32) (data : Option DiskFile) (mem : ℕ → UInt8) (from_ to_ : ℕ)
    (stop : ℕ → Bool) :
    (∀ hash : ℕ → H, CheckSound ⟨sha1, hash, current, true⟩ (singleOnDisk L data)
      (checkedChunks L.numChunks from_ to_ stop)
      (checkSingle L data mem ⟨sha1, hash, current, true⟩ from_ to_ stop)) ↔
    ∀ file, data = some file → L.numChunks = 0 ∨
      ∀ i ∈ checkedChunks L.numChunks from_ to_ stop, HasChunk L file i := by
  cases data with
  | none =>
    refine iff_of_true (fun hash r hr => ?_) fun file h => ?_
    · simp [checkSingle] at hr
    · simp at h
  | some file =>
    simp only [checkSingle, Option.some.injEq, forall_eq']
    rw [checkSound_forall_iff sha1 current true (loadSingle L file) _
      (nodup_checkedChunks L.numChunks from_ to_ stop)]
    rcases Nat.eq_zero_or_pos L.numChunks with hzero | hpos
    · -- no chunk has a hash
      refine iff_of_true (fun ls hls l hl => ?_) (.inl hzero)
      cases hchecked : checkedChunks L.numChunks from_ to_ stop with
      | nil =>
        obtain rfl : [] = ls := by simpa [hchecked, loadedChunks] using hls
        simp at hl
      | cons i is =>
        rw [hchecked, loadedChunks] at hls
        simp [loadSingle, hzero] at hls
    · have hlt : ∀ i ∈ checkedChunks L.numChunks from_ to_ stop, i < L.numChunks := fun i hi =>
        lt_of_mem_checkedChunks hpos L.numChunks_lt hi
      obtain ⟨ls, hls⟩ := loadedChunks_single_ok file _
        ⟨uninit mem (u32 L.chunkSize), 0, false⟩ hlt
      have hiff := loadedChunks_single_iff sha1 hcs file _
        ⟨uninit mem (u32 L.chunkSize), 0, false⟩ rfl hlt ls hls
      constructor
      · intro hall
        exact .inr (hiff.1 (hall ls hls))
      · rintro (hzero | hall) ls' hls'
        · omega
        · obtain rfl : ls = ls' := by simpa [hls] using hls'
          exact hiff.2 hall

end Single

end KTorrent
