import KTorrent.Lib.Run
import KTorrent.Diskio.Exclusion

/-!
# The index file

The chunk manager appends an entry to the index file for every chunk that is
downloaded and writes the whole file anew after a data check.  A manager that is
constructed later reads the file back.  This file compares the chunks it finds
with those the first manager had.

* `reload` — a fresh manager over the same files, after `loadIndexFile`.
* `reload_bitset` — the chunks it finds: the entries of the file and, if there
  are any, the chunk that an unwritten header happens to name.
* `KeepsRecord` — the events after which the file is still true: no downloaded
  chunk is excluded, since entries are never removed, and the unwritten header
  does not name a chunk that is not there.
* `persisted_iff` — the file is true along a run exactly when all events are of
  this kind.
-/

namespace KTorrent

open Runs

namespace ChunkManager

variable {L : Layout} {cfg : PreviewConfig}

/-! ## Loading -/

/-- A fresh manager over the files of `s`, after `loadIndexFile`.  The
uninitialised header of the last round holds `stale`. -/
def reload (L : Layout) (cfg : PreviewConfig) (stale : ℕ) (s : ChunkManager) : ChunkManager :=
  loadIndexFile L cfg stale (new L cfg s.indexFile s.fileInfoFile s.filePriorityFile)

/-- No chunk of `t` is downloaded that was not downloaded in `s`, and the index
file is the same. -/
structure Shrinks (s t : ChunkManager) : Prop where
  index : t.indexFile = s.indexFile
  bitset : ∀ i, t.bitset i = true → s.bitset i = true

theorem Shrinks.refl (s : ChunkManager) : Shrinks s s := ⟨rfl, fun _ h => h⟩

theorem Shrinks.trans {s t u : ChunkManager} (h : Shrinks s t) (h' : Shrinks t u) : Shrinks s u :=
  ⟨h'.index.trans h.index, fun i hi => h.bitset i (h'.bitset i hi)⟩

/-- The rule for the loops. -/
theorem Shrinks.foldl {α : Type*} {f : ChunkManager → α → ChunkManager}
    (hf : ∀ s a, Shrinks s (f s a)) : ∀ (l : List α) (s : ChunkManager), Shrinks s (l.foldl f s) := by
  intro l
  induction l with
  | nil => exact Shrinks.refl
  | cons a l ih => exact fun s => (hf s a).trans (ih _)

theorem SameChunks.shrinks {s t : ChunkManager} (h : SameChunks s t) : Shrinks s t :=
  ⟨h.index, fun i hi => (h.kept i id).1 ▸ hi⟩

theorem Reincludes.shrinks {s t : ChunkManager} {I : ℕ → Prop} (h : Reincludes s t I) :
    Shrinks s t :=
  ⟨h.index, fun _ hi => h.bitset ▸ hi⟩

theorem resetChunk_shrinks (s : ChunkManager) (i : ℕ) : Shrinks s (s.resetChunk L i) := by
  rw [resetChunk]
  split
  · exact .refl s
  · refine ⟨rfl, fun j hj => ?_⟩
    by_cases hji : j = i
    · subst hji
      simp at hj
    · simpa [Function.update_of_ne hji] using hj

theorem exclude_shrinks (s : ChunkManager) (a b : ℕ) : Shrinks s (s.exclude L a b) := by
  refine ⟨rfl, fun i hi => ?_⟩
  simp only [exclude, onRange] at hi
  split at hi
  · simp at hi
  · exact hi

theorem resetEnd_shrinks (s : ChunkManager) (idx : ℕ) (tf : TorrentFile) :
    Shrinks s (s.resetEnd L idx tf).2 := by
  rw [resetEnd]
  split
  · obtain ⟨p, hp⟩ := resetBorderChunk_eq (L := L) s idx tf
    rw [hp]
    split
    · exact (setBorderChunkPriority_same s idx p).shrinks
    · exact resetChunk_shrinks s idx
  · exact resetChunk_shrinks s idx

theorem excludeFile_shrinks (s : ChunkManager) (tf : TorrentFile) :
    Shrinks s (s.excludeFile L tf) := by
  unfold excludeFile
  dsimp only
  split
  · split
    · exact (resetEnd_shrinks ..).trans (exclude_shrinks ..)
    · exact resetEnd_shrinks ..
  · set r₁ := ((List.range' (tf.firstChunk + 1) (tf.lastChunk - (tf.firstChunk + 1))).foldl
      (resetChunk L) s).resetEnd L tf.firstChunk tf
    have h₁ : Shrinks s r₁.2 := (Shrinks.foldl resetChunk_shrinks _ s).trans (resetEnd_shrinks ..)
    set first' := if r₁.1 then tf.firstChunk else tf.firstChunk + 1
    set r₂ := (if tf.lastChunk ≠ first' then r₁.2.resetEnd L tf.lastChunk tf
      else (true, r₁.2)) with hr₂
    have h₂ : Shrinks s r₂.2 := by
      rw [hr₂]
      split
      · exact h₁.trans (resetEnd_shrinks ..)
      · exact h₁
    generalize (if r₂.1 then tf.lastChunk else tf.lastChunk - 1) = last'
    split
    · exact h₂.trans (exclude_shrinks ..)
    · exact h₂

/-- A change of priority, also one made while loading. -/
theorem changePriority_shrinks (s : ChunkManager) {tf : TorrentFile} (htf : tf ∈ L.files)
    (p : Priority) : Shrinks s (s.changePriority L cfg tf p) := by
  have hle := L.ordered.first_le_last tf htf
  have h₀ : Shrinks s (s.withPriority tf p) := ⟨rfl, fun _ h => h⟩
  by_cases hp : p = .excluded
  · subst hp
    exact (h₀.trans (excludeFile_shrinks ..)).trans (savePriorityInfo_same ..).shrinks
  · exact h₀.trans (changePriority_included L cfg s hle hp).shrinks

theorem applyCall_shrinks (s : ChunkManager) (call : PriorityCall L) :
    Shrinks s (s.applyCall L cfg call) := by
  by_cases h : call.excludes = true ∧ s.priority call.file.index ≠ .excluded
  · rw [applyCall_excludes h.1 h.2]
    exact changePriority_shrinks s call.file_mem .excluded
  · exact applyCall_induction h (.refl s) fun t p ht _ =>
      ht.trans (changePriority_shrinks t call.file_mem p)

theorem setDoNotDownload_shrinks (s : ChunkManager) {i : ℕ} {tf : TorrentFile}
    (hi : L.files[i]? = some tf) : Shrinks s (s.setDoNotDownload L cfg tf true) := by
  obtain ⟨hlt, rfl⟩ := List.getElem?_eq_some_iff.1 hi
  exact applyCall_shrinks s (.setDoNotDownload ⟨i, hlt⟩ true)

theorem setPriority_shrinks (s : ChunkManager) {i : ℕ} {tf : TorrentFile}
    (hi : L.files[i]? = some tf) (p : Priority) : Shrinks s (s.setPriority L cfg tf p) := by
  obtain ⟨hlt, rfl⟩ := List.getElem?_eq_some_iff.1 hi
  exact applyCall_shrinks s (.setPriority ⟨i, hlt⟩ p)

theorem loadFileInfo_shrinks (s : ChunkManager) : Shrinks s (s.loadFileInfo L cfg) := by
  unfold loadFileInfo
  split
  · refine Shrinks.foldl (fun s i => ?_) _ s
    cases hi : L.files[i]? with
    | none => exact .refl s
    | some tf => exact setDoNotDownload_shrinks s hi
  · exact .refl s

theorem loadPriorities_shrinks : ∀ (buf : List ℕ) (s : ChunkManager),
    Shrinks s (loadPriorities L cfg buf s)
  | [], s => .refl s
  | [_], s => .refl s
  | idx :: value :: rest, s => by
    rw [loadPriorities]
    cases hi : L.files[idx]? with
    | none => exact loadFileInfo_shrinks s
    | some tf =>
      refine Shrinks.trans ?_ (loadPriorities_shrinks rest _)
      cases loadedPriority value with
      | none => exact .refl s
      | some p => exact setPriority_shrinks s hi p

theorem loadPriorityInfo_shrinks (s : ChunkManager) : Shrinks s (s.loadPriorityInfo L cfg) := by
  unfold loadPriorityInfo
  split
  · split
    · exact loadFileInfo_shrinks s
    · exact loadPriorities_shrinks _ s
  · exact loadFileInfo_shrinks s

theorem loadIndexEntries_bitset : ∀ (l : List ℕ) (s : ChunkManager) (i : ℕ),
    (l.foldl (loadIndexEntry L) s).bitset i = true ↔
      s.bitset i = true ∨ (i ∈ l ∧ i < L.numChunks) := by
  intro l
  induction l with
  | nil => intro s i; simp
  | cons j l ih =>
    intro s i
    rw [List.foldl_cons, ih, loadIndexEntry, List.mem_cons]
    by_cases hij : i = j
    · subst hij
      split
      · rename_i hlt
        simp [hlt]
      · rename_i hlt
        simp [hlt]
    · split
      · simp [hij]
      · simp [hij]

/-- **What a fresh manager finds.** -/
theorem reload_bitset (L : Layout) (cfg : PreviewConfig) (stale : ℕ) (s : ChunkManager) (i : ℕ) :
    (reload L cfg stale s).bitset i = true ↔
      i < L.numChunks ∧ (i ∈ s.indexFile ∨ (s.indexFile ≠ [] ∧ i = stale)) := by
  set s₀ := new L cfg s.indexFile s.fileInfoFile s.filePriorityFile with hs₀
  obtain ⟨-, -, hbits, -, hindex, -⟩ :=
    new_same L cfg s.indexFile s.fileInfoFile s.filePriorityFile
  have hload : Shrinks { s₀ with duringLoad := true }
      (loadPriorityInfo L cfg { s₀ with duringLoad := true }) := loadPriorityInfo_shrinks _
  set s₁ := loadPriorityInfo L cfg { s₀ with duringLoad := true } with hs₁
  have hempty : ∀ j, ¬ s₁.bitset j = true := by
    intro j hj
    have := hload.bitset j hj
    rw [show ({ s₀ with duringLoad := true } : ChunkManager).bitset j = false from
      congrFun hbits j] at this
    simp at this
  have hidx : s₁.indexFile = s.indexFile := hload.index.trans hindex
  rw [reload, ← hs₀, loadIndexFile]
  dsimp only
  rw [← hs₁, hidx]
  by_cases hnil : s.indexFile = []
  · simp only [hnil]
    simpa using hempty i
  · rw [if_neg hnil, loadIndexEntries_bitset]
    simp only [List.mem_append, List.mem_singleton]
    constructor
    · rintro (hb | ⟨hmem, hi⟩)
      · exact absurd hb (hempty i)
      · exact ⟨hi, hmem.imp_right fun h => ⟨hnil, h⟩⟩
    · rintro ⟨hi, hmem⟩
      exact .inr ⟨hmem.imp_right And.right, hi⟩

/-! ## Runs -/

/-- What happens to a manager. -/
inductive ManagerEvent (L : Layout) where
  | chunkDownloaded (i : ℕ)
  | priority (call : PriorityCall L)
  | dataChecked (okChunks : ℕ → Bool) (from_ to_ : ℕ)

/-- One event. -/
def manage (L : Layout) (cfg : PreviewConfig) (s : ChunkManager) : ManagerEvent L → ChunkManager
  | .chunkDownloaded i => s.chunkDownloaded L i
  | .priority call => s.applyCall L cfg call
  | .dataChecked okChunks from_ to_ => s.dataChecked L okChunks from_ to_

/-- A fresh manager finds the chunks that are downloaded now. -/
def Persisted (L : Layout) (cfg : PreviewConfig) (stale : ℕ) (s : ChunkManager) : Prop :=
  ∀ i, (reload L cfg stale s).bitset i = s.bitset i

/-- The chunks that count as downloaded after a data check. -/
def checkedChunks (L : Layout) (s : ChunkManager) (okChunks : ℕ → Bool) (from_ to_ i : ℕ) : Bool :=
  if from_ ≤ i ∧ i < L.numChunks ∧ i ≤ to_ then okChunks i else s.bitset i

/-- The event does not make the index file untrue: an exclusion takes out no
downloaded chunk, and the unwritten header does not name a chunk that is missing
from a non-empty file. -/
def KeepsRecord (L : Layout) (stale : ℕ) (s : ChunkManager) : ManagerEvent L → Prop
  | .chunkDownloaded i => i < L.numChunks → s.chunkPriority i ≠ .excluded → stale < L.numChunks →
      stale = i ∨ s.bitset stale = true
  | .priority call => call.excludes = true → s.priority call.file.index ≠ .excluded →
      ∀ i, TakenOut L (s.withPriority call.file .excluded) call.file i → s.bitset i = false
  | .dataChecked okChunks from_ to_ => stale < L.numChunks →
      (∃ i < L.numChunks, checkedChunks L s okChunks from_ to_ i = true) →
      checkedChunks L s okChunks from_ to_ stale = true

/-- The index file has an entry for each downloaded chunk and no other, and the
unwritten header adds nothing. -/
structure Recorded (L : Layout) (stale : ℕ) (s : ChunkManager) : Prop where
  load : s.duringLoad = false
  onDisk : ∀ i, s.onDisk i = s.bitset i
  lt : ∀ i, s.bitset i = true → i < L.numChunks
  index : ∀ i, i ∈ s.indexFile ↔ s.bitset i = true
  stale : s.indexFile ≠ [] → stale < L.numChunks → s.bitset stale = true

theorem Recorded.persisted {stale : ℕ} {s : ChunkManager} (h : Recorded L stale s) :
    Persisted L cfg stale s := by
  intro i
  rw [Bool.eq_iff_iff, reload_bitset, h.index]
  constructor
  · rintro ⟨hi, hb | ⟨hne, rfl⟩⟩
    · exact hb
    · exact h.stale hne hi
  · exact fun hb => ⟨h.lt i hb, .inl hb⟩

/-- What the entries miss or the header adds, the fresh manager has wrong. -/
theorem not_persisted {stale : ℕ} {s : ChunkManager} {i : ℕ} (hi : i < L.numChunks)
    (hb : s.bitset i = false)
    (hrec : i ∈ s.indexFile ∨ (s.indexFile ≠ [] ∧ i = stale)) : ¬ Persisted L cfg stale s := by
  intro h
  have := (reload_bitset L cfg stale s i).2 ⟨hi, hrec⟩
  rw [h i, hb] at this
  simp at this

theorem chunkDownloaded_eq {s : ChunkManager} {i : ℕ} (hi : i < L.numChunks)
    (hp : s.chunkPriority i ≠ .excluded) :
    s.chunkDownloaded L i = { s with
      bitset := Function.update s.bitset i true
      todo := Function.update s.todo i false
      onDisk := Function.update s.onDisk i true
      indexFile := s.indexFile ++ [i] } := by
  rw [chunkDownloaded, if_neg (by omega), if_pos hp]
  rfl

/-- What a data check leaves behind, when statuses and bits agree before. -/
theorem dataChecked_spec {s : ChunkManager} (hdisk : ∀ i, s.onDisk i = s.bitset i)
    (okChunks : ℕ → Bool) (from_ to_ : ℕ) :
    (s.dataChecked L okChunks from_ to_).bitset = checkedChunks L s okChunks from_ to_ ∧
    (s.dataChecked L okChunks from_ to_).onDisk = checkedChunks L s okChunks from_ to_ ∧
    (s.dataChecked L okChunks from_ to_).indexFile =
      (List.range L.numChunks).filter (checkedChunks L s okChunks from_ to_) ∧
    (s.dataChecked L okChunks from_ to_).duringLoad = s.duringLoad := by
  have hstatus : (fun i =>
      if (from_ ≤ i ∧ i < L.numChunks ∧ i ≤ to_) ∧ okChunks i = true ∧ (!s.bitset i) = true then true
      else if (from_ ≤ i ∧ i < L.numChunks ∧ i ≤ to_) ∧ (!okChunks i) = true ∧ s.bitset i = true
        then false else s.onDisk i) = checkedChunks L s okChunks from_ to_ := by
    funext i
    rw [checkedChunks, hdisk]
    by_cases hc : from_ ≤ i ∧ i < L.numChunks ∧ i ≤ to_
    · cases okChunks i <;> cases s.bitset i <;> simp [hc]
    · simp [hc]
  have hsave := savePriorityInfo_same (L := L)
  refine ⟨?_, ?_, ?_, ?_⟩
  · exact funext fun i => ((hsave _).kept i id).1
  · exact (funext fun i => ((hsave _).kept i id).2).trans hstatus
  · refine (hsave _).index.trans ?_
    exact congrArg (fun p => (List.range L.numChunks).filter p) hstatus
  · exact (hsave _).load

theorem recorded_changePriority {stale : ℕ} {s : ChunkManager} (h : Recorded L stale s)
    {tf : TorrentFile} (htf : tf ∈ L.files) {p : Priority} (hp : p ≠ .excluded) :
    Recorded L stale (s.changePriority L cfg tf p) := by
  have hinc := changePriority_included L cfg s (L.ordered.first_le_last tf htf) hp
  have hb : (s.changePriority L cfg tf p).bitset = s.bitset := hinc.bitset
  have hd : (s.changePriority L cfg tf p).onDisk = s.onDisk := hinc.onDisk
  have hi : (s.changePriority L cfg tf p).indexFile = s.indexFile := hinc.index
  exact ⟨hinc.load.trans h.load, by rw [hb, hd]; exact h.onDisk, by rw [hb]; exact h.lt,
    by rw [hb, hi]; exact h.index, by rw [hb, hi]; exact h.stale⟩

/-- An exclusion that takes out no downloaded chunk changes no bit and no status. -/
theorem recorded_exclude {stale : ℕ} {s : ChunkManager} (h : Recorded L stale s)
    {tf : TorrentFile} (htf : tf ∈ L.files)
    (hok : ∀ i, TakenOut L (s.withPriority tf .excluded) tf i → s.bitset i = false) :
    Recorded L stale (s.changePriority L cfg tf .excluded) := by
  have hex := changePriority_excluded L cfg h.load
    (L.ordered.first_le_last tf htf)
  have hb : (s.changePriority L cfg tf .excluded).bitset = s.bitset := by
    funext i
    by_cases ht : TakenOut L (s.withPriority tf .excluded) tf i
    · rw [(hex.taken i ht).2, hok i ht]
    · exact (hex.kept i ht).2.1
  have hd : (s.changePriority L cfg tf .excluded).onDisk = s.onDisk := by
    funext i
    by_cases ht : TakenOut L (s.withPriority tf .excluded) tf i
    · have hoff : s.onDisk i = false := by rw [h.onDisk, hok i ht]
      rw [hoff, Bool.eq_false_iff]
      intro hc
      have hon : s.onDisk i = true := hex.taken_onDisk i ht hc
      rw [hoff] at hon
      simp at hon
    · exact (hex.kept i ht).2.2
  have hi : (s.changePriority L cfg tf .excluded).indexFile = s.indexFile := hex.index
  exact ⟨hex.load.trans h.load, by rw [hb, hd]; exact h.onDisk, by rw [hb]; exact h.lt,
    by rw [hb, hi]; exact h.index, by rw [hb, hi]; exact h.stale⟩

/-- **Events that keep the record keep the index file true.** -/
theorem recorded_manage {stale : ℕ} {s : ChunkManager} (h : Recorded L stale s)
    {e : ManagerEvent L} (hok : KeepsRecord L stale s e) :
    Recorded L stale (manage L cfg s e) := by
  cases e with
  | chunkDownloaded i =>
    by_cases hdo : i < L.numChunks ∧ s.chunkPriority i ≠ .excluded
    · have hstale := hok hdo.1 hdo.2
      rw [manage, chunkDownloaded_eq hdo.1 hdo.2]
      refine ⟨h.load, ?_, ?_, ?_, ?_⟩
      · intro j
        by_cases hj : j = i
        · simp [hj]
        · simp [Function.update_of_ne hj, h.onDisk]
      · intro j hj
        by_cases hji : j = i
        · exact hji ▸ hdo.1
        · exact h.lt j (by simpa [Function.update_of_ne hji] using hj)
      · intro j
        by_cases hj : j = i
        · simp [hj]
        · simp [hj, h.index]
      · intro _ hlt
        by_cases hsi : stale = i
        · simp [hsi]
        · simp only [Function.update_of_ne hsi]
          exact (hstale hlt).resolve_left hsi
    · have hsame : s.chunkDownloaded L i = s := by
        rw [chunkDownloaded]
        split
        · rfl
        · rw [if_neg fun hc => hdo ⟨by omega, hc⟩]
      rw [manage, hsame]
      exact h
  | priority call =>
    by_cases hex : call.excludes = true ∧ s.priority call.file.index ≠ .excluded
    · rw [manage, applyCall_excludes hex.1 hex.2]
      exact recorded_exclude h call.file_mem (hok hex.1 hex.2)
    · exact applyCall_induction hex h fun t p ht hp => recorded_changePriority ht call.file_mem hp
  | dataChecked okChunks from_ to_ =>
    obtain ⟨hb, hd, hi, hl⟩ := dataChecked_spec (L := L) h.onDisk okChunks from_ to_
    have hlt : ∀ i, checkedChunks L s okChunks from_ to_ i = true → i < L.numChunks := by
      intro i hc
      rw [checkedChunks] at hc
      split at hc
      · omega
      · exact h.lt i hc
    refine ⟨hl.trans h.load, ?_, ?_, ?_, ?_⟩
    · intro i
      rw [manage, hb, hd]
    · rw [manage, hb]
      exact hlt
    · intro i
      rw [manage, hb, hi, List.mem_filter, List.mem_range]
      exact ⟨And.right, fun hc => ⟨hlt i hc, hc⟩⟩
    · intro hne hs
      rw [manage, hi] at hne
      rw [manage, hb]
      obtain ⟨i, his⟩ := List.exists_mem_of_ne_nil _ hne
      rw [List.mem_filter, List.mem_range] at his
      exact hok hs ⟨i, his⟩

/-- An event that does not keep the record is noticed at once. -/
theorem not_persisted_manage {stale : ℕ} {s : ChunkManager} (h : Recorded L stale s)
    {e : ManagerEvent L} (hbad : ¬ KeepsRecord L stale s e) :
    ¬ Persisted L cfg stale (manage L cfg s e) := by
  cases e with
  | chunkDownloaded i =>
    simp only [KeepsRecord] at hbad
    push Not at hbad
    obtain ⟨hi, hp, hs, hne, hb⟩ := hbad
    rw [manage, chunkDownloaded_eq hi hp]
    refine not_persisted hs ?_ (.inr ⟨by simp, rfl⟩)
    simpa [Function.update_of_ne hne] using hb
  | priority call =>
    simp only [KeepsRecord] at hbad
    push Not at hbad
    obtain ⟨hc, hp, i, ht, hb⟩ := hbad
    have hex := changePriority_excluded L cfg h.load
      (L.ordered.first_le_last _ call.file_mem)
    rw [manage, applyCall_excludes hc hp]
    refine not_persisted ht.2 (hex.taken i ht).2 (.inl ?_)
    rw [hex.index]
    exact (h.index i).2 (by simpa using hb)
  | dataChecked okChunks from_ to_ =>
    simp only [KeepsRecord] at hbad
    push Not at hbad
    obtain ⟨hs, ⟨i, hi, hc⟩, hb⟩ := hbad
    obtain ⟨hbit, -, hidx, -⟩ := dataChecked_spec (L := L) h.onDisk okChunks from_ to_
    rw [manage]
    refine not_persisted hs ?_ (.inr ⟨?_, rfl⟩)
    · rw [hbit]
      simpa using hb
    · rw [hidx]
      exact List.ne_nil_of_mem (List.mem_filter.2 ⟨List.mem_range.2 hi, hc⟩)

/-- **The index file along a run.**  From a new manager without index file, a
fresh manager would find the chunks that are downloaded after every event exactly
when every event keeps the record. -/
theorem persisted_iff (L : Layout) (cfg : PreviewConfig) (stale : ℕ)
    (events : List (ManagerEvent L)) :
    AllStates (manage L cfg) (Persisted L cfg stale) (new L cfg [] none none) events ↔
      AllSteps (manage L cfg) (KeepsRecord L stale) (new L cfg [] none none) events := by
  obtain ⟨-, -, hbits, hdisk, hindex, hload⟩ := new_same L cfg [] none none
  have hinit : Recorded L stale (new L cfg [] none none) := by
    refine ⟨hload, ?_, ?_, ?_, ?_⟩
    · intro i
      rw [hbits, hdisk]
    · intro i hi
      rw [hbits] at hi
      simp at hi
    · intro i
      rw [hbits, hindex]
      simp
    · intro hne
      exact absurd hindex hne
  exact allStates_iff_allSteps (fun _ h => h.persisted) (fun _ _ h hok => recorded_manage h hok)
    (fun _ _ h hbad => not_persisted_manage h hbad) events _ hinit

/-- Two files of one chunk each. -/
def oneChunkFiles : Layout where
  chunkSize := 4
  sizes := [4, 4]
  chunkSize_pos := Layout.small_pos
  chunkSize_lt := Layout.small_lt
  total_lt := by decide
  count_lt := by decide
  chunks_lt := by decide

/-- **Entries are not removed.**  The chunk of a file that is downloaded and then
excluded comes back, whatever the unwritten header holds. -/
theorem excluded_chunk_returns :
    ¬ AllStates (manage oneChunkFiles ⟨fun _ => false, fun _ => false, 0, 0⟩)
      (Persisted oneChunkFiles ⟨fun _ => false, fun _ => false, 0, 0⟩ 4294967295)
      (new oneChunkFiles ⟨fun _ => false, fun _ => false, 0, 0⟩ [] none none)
      [.chunkDownloaded 0, .priority (.setDoNotDownload ⟨0, by decide⟩ true)] := by
  rintro ⟨-, -, h⟩
  have := h 0
  revert this
  decide

end ChunkManager
end KTorrent
