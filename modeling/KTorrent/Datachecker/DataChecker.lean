import KTorrent.Lib.ByteFile
import KTorrent.Torrent.TorrentFile

/-!
# Data checkers

Both data checkers go over a range of chunks with one buffer, load each chunk
into it, hash the buffer and compare the hash with that of the torrent.
`checkChunks` is this loop; how a chunk is loaded is a parameter, and so is
SHA-1, which the program takes from a library.

* `checkChunks_eq` — the loop is a run of loads, followed by the bookkeeping.
* `CheckSound` — what a check promises: the bit of a checked chunk is set exactly
  when the disk has the chunk and its hash is right, and one counter is counted
  up for each chunk.
* `checkSound_forall_iff` — it holds whatever the hashes are exactly when every
  load hands over the bytes on disk, or nothing when they are not all there.
-/

namespace KTorrent

/-- Why a check does not return. -/
inductive CheckError where
  /-- "Cannot open file". -/
  | cannotOpen
  /-- The chunk has no hash: `getHash` throws. -/
  | noHash
  /-- The chunk has no files: the first element of an empty list is taken. -/
  | noFiles
  deriving DecidableEq, Repr

/-- A file on disk; its positions are `Int64` values. -/
structure DiskFile where
  /-- The contents. -/
  bytes : List UInt8
  length_lt : bytes.length < 2 ^ 63

/-- `File::seek` to a position given as `Uint64`: the new position.  A position
that is negative as `Int64` is refused. -/
def seek (pos target : ℕ) : ℕ := if target < 2 ^ 63 then target else pos

theorem seek_of_lt {target : ℕ} (pos : ℕ) (h : target < 2 ^ 63) : seek pos target = target := if_pos h

/-- The results of a check. -/
structure CheckResult where
  /-- The chunks found to be complete. -/
  result : ℕ → Bool
  /-- Chunks that were there according to the status, and are not. -/
  failed : ℕ
  /-- Chunks that were not there according to the status, and are. -/
  found : ℕ
  /-- Chunks that are there, as the status has it. -/
  downloaded : ℕ
  /-- Chunks that are not there, as the status has it. -/
  notDownloaded : ℕ

namespace CheckResult

/-- The state a `DataChecker` is constructed in, with an empty bit set. -/
def new : CheckResult := ⟨fun _ => false, 0, 0, 0, 0⟩

/-- `result.set(i, ok)`. -/
def set (r : CheckResult) (i : ℕ) (ok : Bool) : CheckResult :=
  { r with result := Function.update r.result i ok }

/-- Count a chunk, given the verdict and its current status. -/
def count (r : CheckResult) (ok current : Bool) : CheckResult :=
  match ok, current with
  | true, true => { r with downloaded := r.downloaded + 1 }
  | false, true => { r with failed := r.failed + 1 }
  | false, false => { r with notDownloaded := r.notDownloaded + 1 }
  | true, false => { r with found := r.found + 1 }

/-- The sum of the four counters. -/
def counted (r : CheckResult) : ℕ := r.failed + r.found + r.downloaded + r.notDownloaded

@[simp] theorem result_count (r : CheckResult) (ok current : Bool) :
    (r.count ok current).result = r.result := by
  cases ok <;> cases current <;> rfl

@[simp] theorem counted_count (r : CheckResult) (ok current : Bool) :
    (r.count ok current).counted = r.counted + 1 := by
  cases ok <;> cases current <;> simp only [count, counted] <;> omega

@[simp] theorem counted_set (r : CheckResult) (i : ℕ) (ok : Bool) :
    (r.set i ok).counted = r.counted := rfl

end CheckResult

/-- The range of chunks, after `from` and `to` were put inside the torrent. -/
def checkRange (numChunks from_ to_ : ℕ) : List ℕ :=
  let from_ := if from_ ≥ numChunks then 0 else from_
  let to_ := if to_ ≥ numChunks then sub32 numChunks 1 else to_
  List.range' from_ (to_ + 1 - from_)

/-- The chunks that are checked: `stop` says when the loop finds the request to
stop. -/
def checkedChunks (numChunks from_ to_ : ℕ) (stop : ℕ → Bool) : List ℕ :=
  (checkRange numChunks from_ to_).takeWhile fun i => !stop i

/-- A torrent with chunks is checked within its chunks. -/
theorem lt_of_mem_checkedChunks {numChunks from_ to_ i : ℕ} {stop : ℕ → Bool} (hpos : 0 < numChunks)
    (hlt : numChunks < 2 ^ 32) (h : i ∈ checkedChunks numChunks from_ to_ stop) : i < numChunks := by
  have hmem := (List.takeWhile_sublist _).subset h
  rw [checkRange, List.mem_range'_1] at hmem
  rw [sub32_of_le hpos hlt] at hmem
  split at hmem <;> split at hmem <;> omega

theorem nodup_checkedChunks (numChunks from_ to_ : ℕ) (stop : ℕ → Bool) :
    (checkedChunks numChunks from_ to_ stop).Nodup := by
  have hrange : (checkRange numChunks from_ to_).Nodup := List.nodup_range'
  exact hrange.sublist (List.takeWhile_sublist _)

section Loop

variable {σ H : Type} [DecidableEq H]

/-- What a check needs to know: SHA-1, the hashes of the torrent, which chunks are
there so far, and whether the bit of a chunk that cannot be loaded is cleared or
left as it is. -/
structure CheckInput (H : Type) where
  /-- `SHA1Hash::generate`. -/
  sha1 : List UInt8 → H
  /-- `Torrent::getHash`. -/
  hash : ℕ → H
  /-- `current_status`. -/
  current : ℕ → Bool
  /-- The bit of a chunk that cannot be loaded is set to false. -/
  clears : Bool

/-- What is done with chunk `i` once it was loaded: `some` bytes are hashed. -/
def CheckInput.record (input : CheckInput H) (r : CheckResult) (load : ℕ × Option (List UInt8)) :
    CheckResult :=
  match load.2 with
  | some bytes =>
    let ok := decide (input.sha1 bytes = input.hash load.1)
    (r.set load.1 ok).count ok (input.current load.1)
  | none =>
    (if input.clears then r.set load.1 false else r).count false (input.current load.1)

/-- The loop of `check`; the state `σ` has the buffer. -/
def checkChunks (input : CheckInput H) (load : ℕ → σ → Except CheckError (Option (List UInt8) × σ)) :
    List ℕ → σ → CheckResult → Except CheckError CheckResult
  | [], _, r => .ok r
  | i :: is, st, r =>
    match load i st with
    | .error e => .error e
    | .ok (bytes, st') => checkChunks input load is st' (input.record r (i, bytes))

/-- What the loop loads, chunk by chunk. -/
def loadedChunks (load : ℕ → σ → Except CheckError (Option (List UInt8) × σ)) :
    List ℕ → σ → Except CheckError (List (ℕ × Option (List UInt8)))
  | [], _ => .ok []
  | i :: is, st =>
    match load i st with
    | .error e => .error e
    | .ok (bytes, st') => (loadedChunks load is st').map ((i, bytes) :: ·)

/-- The loads do not depend on the verdicts. -/
theorem checkChunks_eq (input : CheckInput H)
    (load : ℕ → σ → Except CheckError (Option (List UInt8) × σ)) :
    ∀ (is : List ℕ) (st : σ) (r : CheckResult),
      checkChunks input load is st r = (loadedChunks load is st).map (·.foldl input.record r) := by
  intro is
  induction is with
  | nil => intros; rfl
  | cons i is ih =>
    intro st r
    rw [checkChunks, loadedChunks]
    cases load i st with
    | error e => rfl
    | ok p =>
      obtain ⟨bytes, st'⟩ := p
      simp only [ih]
      cases loadedChunks load is st' with
      | error e => rfl
      | ok ls => rfl

theorem loadedChunks_map_fst (load : ℕ → σ → Except CheckError (Option (List UInt8) × σ)) :
    ∀ (is : List ℕ) (st : σ) (ls : List (ℕ × Option (List UInt8))),
      loadedChunks load is st = .ok ls → ls.map Prod.fst = is := by
  intro is
  induction is with
  | nil =>
    intro st ls h
    obtain rfl : [] = ls := by simpa [loadedChunks] using h
    rfl
  | cons i is ih =>
    intro st ls h
    rw [loadedChunks] at h
    cases hload : load i st with
    | error e => simp [hload] at h
    | ok p =>
      obtain ⟨bytes, st'⟩ := p
      simp only [hload] at h
      cases hrest : loadedChunks load is st' with
      | error e => simp [hrest, Except.map] at h
      | ok ls' =>
        obtain rfl : (i, bytes) :: ls' = ls := by simpa [hrest, Except.map] using h
        rw [List.map_cons, ih st' ls' hrest]

/-! ## The verdicts -/

theorem counted_foldl_record (input : CheckInput H) (ls : List (ℕ × Option (List UInt8))) :
    ∀ r : CheckResult, (ls.foldl input.record r).counted = r.counted + ls.length := by
  induction ls with
  | nil => intro r; rfl
  | cons l ls ih =>
    intro r
    rw [List.foldl_cons, ih, List.length_cons]
    have hrecord : (input.record r l).counted = r.counted + 1 := by
      obtain ⟨i, bytes⟩ := l
      cases bytes with
      | none =>
        simp only [CheckInput.record, CheckResult.counted_count]
        split <;> rfl
      | some bytes => simp only [CheckInput.record, CheckResult.counted_count,
          CheckResult.counted_set]
    omega

/-- The bits of other chunks are left alone. -/
theorem result_record_of_ne (input : CheckInput H) (r : CheckResult)
    (l : ℕ × Option (List UInt8)) {i : ℕ} (h : i ≠ l.1) :
    (input.record r l).result i = r.result i := by
  obtain ⟨j, bytes⟩ := l
  cases bytes with
  | none =>
    simp only [CheckInput.record, CheckResult.result_count]
    split
    · exact Function.update_of_ne h _ _
    · rfl
  | some bytes =>
    simp only [CheckInput.record, CheckResult.result_count]
    exact Function.update_of_ne h _ _

theorem result_foldl_of_not_mem (input : CheckInput H) {i : ℕ} (ls : List (ℕ × Option (List UInt8))) :
    ∀ r : CheckResult, i ∉ ls.map Prod.fst → (ls.foldl input.record r).result i = r.result i := by
  induction ls with
  | nil => intro r _; rfl
  | cons l ls ih =>
    intro r h
    rw [List.map_cons, List.mem_cons, not_or] at h
    rw [List.foldl_cons, ih _ h.2, result_record_of_ne input r l h.1]

/-- The bit of a chunk is set exactly when what was loaded has the right hash. -/
theorem result_foldl_record (input : CheckInput H) {i : ℕ} {bytes : Option (List UInt8)}
    (ls : List (ℕ × Option (List UInt8))) : ∀ r : CheckResult, (ls.map Prod.fst).Nodup →
    r.result i = false → (i, bytes) ∈ ls →
    ((ls.foldl input.record r).result i = true ↔ bytes.map input.sha1 = some (input.hash i)) := by
  induction ls with
  | nil => intro r _ _ h; simp at h
  | cons l ls ih =>
    intro r hnd hr hmem
    rw [List.map_cons, List.nodup_cons] at hnd
    rw [List.foldl_cons]
    rcases List.mem_cons.1 hmem with rfl | hmem
    · rw [result_foldl_of_not_mem input ls _ hnd.1]
      cases bytes with
      | none =>
        simp only [CheckInput.record, CheckResult.result_count]
        split
        · simp [CheckResult.set]
        · simp [hr]
      | some bytes => simp [CheckInput.record, CheckResult.set]
    · have hne : i ≠ l.1 := by
        rintro rfl
        exact hnd.1 (List.mem_map.2 ⟨_, hmem, rfl⟩)
      exact ih _ hnd.2 ((result_record_of_ne input r l hne).trans hr) hmem

/-! ## Soundness -/

/-- What a check that returns promises, given the bytes the disk has of each
chunk. -/
def CheckSound (input : CheckInput H) (onDisk : ℕ → Option (List UInt8)) (checked : List ℕ)
    (outcome : Except CheckError CheckResult) : Prop :=
  ∀ r, outcome = .ok r →
    (∀ i ∈ checked, (r.result i = true ↔ ∃ bytes, onDisk i = some bytes ∧
      input.sha1 bytes = input.hash i)) ∧ r.counted = checked.length

/-- **A checker is sound for all hashes** exactly when each load hands over what
is on disk, up to collisions of the hash function. -/
theorem checkSound_forall_iff (sha1 : List UInt8 → H) (current : ℕ → Bool) (clears : Bool)
    (load : ℕ → σ → Except CheckError (Option (List UInt8) × σ))
    (onDisk : ℕ → Option (List UInt8)) {is : List ℕ} (hnd : is.Nodup) (st : σ) :
    (∀ hash : ℕ → H, CheckSound ⟨sha1, hash, current, clears⟩ onDisk is
      (checkChunks ⟨sha1, hash, current, clears⟩ load is st .new)) ↔
    ∀ ls, loadedChunks load is st = .ok ls →
      ∀ l ∈ ls, l.2.map sha1 = (onDisk l.1).map sha1 := by
  have hspec : ∀ (i : ℕ) (hash : ℕ → H), (∃ bytes, onDisk i = some bytes ∧ sha1 bytes = hash i) ↔
      (onDisk i).map sha1 = some (hash i) := by
    intro i hash
    rw [Option.map_eq_some_iff]
  constructor
  · -- the hash that the loaded bytes happen to have, or the one on disk
    intro h ls hls l hl
    have hfst := loadedChunks_map_fst load is st ls hls
    have hbit : ∀ hash : ℕ → H,
        l.2.map sha1 = some (hash l.1) ↔ (onDisk l.1).map sha1 = some (hash l.1) := by
      intro hash
      have hsound := (h hash _ (by rw [checkChunks_eq, hls]; rfl)).1 l.1
        (hfst ▸ List.mem_map_of_mem (f := Prod.fst) hl)
      rw [hspec] at hsound
      rw [← hsound]
      exact (result_foldl_record ⟨sha1, hash, current, clears⟩ ls .new (hfst ▸ hnd) rfl hl).symm
    cases hload : l.2.map sha1 with
    | some x => exact ((hbit fun _ => x).1 hload).symm
    | none =>
      cases hdisk : (onDisk l.1).map sha1 with
      | none => rfl
      | some x => rw [(hbit fun _ => x).2 hdisk] at hload; simp at hload
  · intro h hash r hr
    rw [checkChunks_eq] at hr
    cases hls : loadedChunks load is st with
    | error e => simp [hls, Except.map] at hr
    | ok ls =>
      have hfst := loadedChunks_map_fst load is st ls hls
      obtain rfl : ls.foldl _ CheckResult.new = r := by simpa [hls, Except.map] using hr
      constructor
      · intro i hi
        rw [← hfst] at hi
        obtain ⟨l, hl, rfl⟩ := List.mem_map.1 hi
        rw [hspec, ← h ls hls l hl]
        exact result_foldl_record _ ls .new (hfst ▸ hnd) rfl hl
      · rw [counted_foldl_record, ← hfst, List.length_map]
        exact Nat.zero_add _

end Loop

end KTorrent
