import KTorrent.Diskio.Exclusion

/-!
# What a change of priority does to a chunk

Four bit sets say of a chunk whether it is downloaded, excluded, only seeded and
still to do.  This file follows a single chunk through a change of priority.

* `ChunkEntry` — the four bits; `given`, `gone` — what becomes of them when the
  chunk gets a priority, and when it is excluded.
* `highestPriority` — the priority a chunk gets, from those of its files.
* `ChunkView` — what can be seen of a chunk, and what the operations make of it;
  `ChunkView.changePriority` follows it through a change.
* `Changes` — what a change does to the bits of every chunk: `changePriority_changes`
  for one change, `applyCall_changes` for a call.
* `applyCall_wanted` — what a call does to the priority of a chunk.
-/

namespace KTorrent

/-- A priority with which a chunk is downloaded. -/
def Priority.wanted (p : Priority) : Bool := p != .onlySeed && p != .excluded

/-! ## A single chunk -/

/-- What the four sets say about a chunk. -/
structure ChunkEntry where
  bitset : Bool
  excluded : Bool
  onlySeed : Bool
  todo : Bool
  deriving DecidableEq

namespace ChunkEntry

/-- The chunk is prioritised; it may have been included before. -/
def given (e : ChunkEntry) (included : Bool) (p : Priority) : ChunkEntry :=
  ⟨e.bitset, e.excluded && !included, p == .onlySeed, p.wanted && !e.bitset⟩

/-- The chunk is included. -/
def include_ (e : ChunkEntry) : ChunkEntry :=
  { e with excluded := false, todo := if e.bitset then e.todo else true }

/-- The chunk is reset. -/
def reset (e : ChunkEntry) : ChunkEntry :=
  { e with bitset := false, todo := !e.excluded && !e.onlySeed }

/-- The chunk is excluded. -/
def gone : ChunkEntry := ⟨false, true, false, false⟩

theorem given_include (e : ChunkEntry) (b : Bool) (p : Priority) :
    e.include_.given b p = e.given true p := by
  simp [include_, given]

end ChunkEntry

namespace ChunkManager

variable {L : Layout} {cfg : PreviewConfig}

/-- The bits of chunk `i`. -/
def entry (s : ChunkManager) (i : ℕ) : ChunkEntry :=
  ⟨s.bitset i, s.excludedChunks i, s.onlySeedChunks i, s.todo i⟩

theorem prioritise_entry (s : ChunkManager) (a b : ℕ) (p : Priority) {i : ℕ}
    (hi : i < L.numChunks) : (s.prioritise L a b p).entry i =
      if min a b ≤ i ∧ i ≤ max a b then (s.entry i).given false p else s.entry i := by
  by_cases hr : min a b ≤ i ∧ i ≤ max a b
  · have hin : min a b ≤ i ∧ i ≤ max a b ∧ i < L.numChunks := ⟨hr.1, hr.2, hi⟩
    rw [if_pos hr]
    cases p <;> simp [entry, prioritise, onRange, hin, ChunkEntry.given, Priority.wanted]
  · have hout : ¬ (min a b ≤ i ∧ i ≤ max a b ∧ i < L.numChunks) := fun hc => hr ⟨hc.1, hc.2.1⟩
    simp only [entry, prioritise, onRange, if_neg hout, if_neg hr]

theorem exclude_entry (s : ChunkManager) {a b i : ℕ} (hab : a ≤ b) (hi : i < L.numChunks) :
    (s.exclude L a b).entry i = if a ≤ i ∧ i ≤ b then .gone else s.entry i := by
  by_cases hr : a ≤ i ∧ i ≤ b
  · have hin : min a b ≤ i ∧ i ≤ max a b ∧ i < L.numChunks := by omega
    simp only [entry, exclude, onRange, if_pos hin, if_pos hr, ChunkEntry.gone]
  · have hout : ¬ (min a b ≤ i ∧ i ≤ max a b ∧ i < L.numChunks) := by omega
    simp only [entry, exclude, onRange, if_neg hout, if_neg hr]

theorem include_entry (s : ChunkManager) {a b i : ℕ} (hab : a ≤ b) (hi : i < L.numChunks) :
    (s.include_ L a b).entry i = if a ≤ i ∧ i ≤ b then (s.entry i).include_ else s.entry i := by
  by_cases hr : a ≤ i ∧ i ≤ b
  · have hin : min a b ≤ i ∧ i ≤ max a b ∧ i < L.numChunks := by omega
    simp only [entry, include_, onRange, if_pos hin, if_pos hr, ChunkEntry.include_]
    rfl
  · have hout : ¬ (min a b ≤ i ∧ i ≤ max a b ∧ i < L.numChunks) := by omega
    simp only [entry, include_, onRange, if_neg hout, if_neg hr]

theorem resetChunk_entry {s : ChunkManager} (hload : s.duringLoad = false) (i : ℕ) {j : ℕ}
    (hj : j < L.numChunks) :
    (s.resetChunk L i).entry j = if j = i then (s.entry j).reset else s.entry j := by
  rw [resetChunk]
  by_cases hji : j = i
  · subst hji
    rw [if_neg (by simp [hload]; omega), if_pos rfl]
    simp [entry, ChunkEntry.reset]
  · rw [if_neg hji]
    split
    · rfl
    · simp only [entry, Function.update_of_ne hji]

theorem doPreviewPriority_entry (s : ChunkManager) (f : TorrentFile) :
    (s.doPreviewPriority L cfg f).entry = s.entry := by
  unfold doPreviewPriority
  dsimp only
  split_ifs <;> rfl

theorem savePriorityInfo_entry (s : ChunkManager) : (s.savePriorityInfo L).entry = s.entry := by
  unfold savePriorityInfo
  split <;> rfl

theorem new_entry (L : Layout) (cfg : PreviewConfig) (indexFile : List ℕ)
    (fileInfo filePriority : Option (List ℕ)) (i : ℕ) :
    (new L cfg indexFile fileInfo filePriority).entry i =
      ⟨false, false, false, decide (i < L.numChunks)⟩ := by
  have hfold : ∀ (fs : List TorrentFile) (s : ChunkManager),
      (fs.foldl (fun s f => if cfg.isMultimedia f.index then s.doPreviewPriority L cfg f else s)
        s).entry = s.entry := by
    intro fs
    induction fs with
    | nil => intro s; rfl
    | cons f fs ih =>
      intro s
      rw [List.foldl_cons, ih]
      split
      · exact doPreviewPriority_entry s f
      · rfl
  exact congrFun (hfold L.files _) i

/-! ## The priority of a chunk -/

/-- The higher one of two priorities; of equal ones the first. -/
def higher (p q : Priority) : Priority := if p.value < q.value then q else p

/-- The highest priority of the files of a chunk, and `prio`. -/
def highestPriority (L : Layout) (s : ChunkManager) (idx : ℕ) (prio : Priority) : Priority :=
  (L.overlapping idx).foldl (fun highest f => higher highest (s.priority f.index)) prio

theorem setBorderChunkPriority_eq (s : ChunkManager) (idx : ℕ) (prio : Priority) :
    s.setBorderChunkPriority L idx prio = s.prioritise L idx idx (highestPriority L s idx prio) :=
  rfl

theorem value_injective : ∀ p q : Priority, p.value = q.value → p = q := by
  intro p q
  cases p <;> cases q <;> decide

theorem value_higher (p q : Priority) : (higher p q).value = max p.value q.value := by
  unfold higher
  split <;> omega

/-- The priority is one of those it is taken from, and none of them is higher. -/
theorem foldl_higher (prio : ℕ → Priority) (fs : List TorrentFile) (p : Priority) :
    let h := fs.foldl (fun highest f => higher highest (prio f.index)) p
    (h = p ∨ ∃ f ∈ fs, prio f.index = h) ∧ p.value ≤ h.value ∧
      ∀ f ∈ fs, (prio f.index).value ≤ h.value := by
  induction fs generalizing p with
  | nil => exact ⟨.inl rfl, le_rfl, fun f hf => by cases hf⟩
  | cons g fs ih =>
    obtain ⟨hone, hle, hall⟩ := ih (higher p (prio g.index))
    rw [value_higher] at hle
    refine ⟨?_, by exact (le_max_left _ _).trans hle, ?_⟩
    · rcases hone with hone | ⟨f, hf, hone⟩
      · rw [List.foldl_cons, hone]
        unfold higher
        split
        · exact .inr ⟨g, List.mem_cons_self, rfl⟩
        · exact .inl rfl
      · exact .inr ⟨f, List.mem_cons_of_mem g hf, hone⟩
    · intro f hf
      rcases List.mem_cons.mp hf with rfl | hf
      · exact (le_max_right _ _).trans hle
      · exact hall f hf

theorem highestPriority_spec (L : Layout) (s : ChunkManager) (idx : ℕ) (prio : Priority) :
    (highestPriority L s idx prio = prio ∨
      ∃ f ∈ L.overlapping idx, s.priority f.index = highestPriority L s idx prio) ∧
    prio.value ≤ (highestPriority L s idx prio).value ∧
    ∀ f ∈ L.overlapping idx, (s.priority f.index).value ≤ (highestPriority L s idx prio).value :=
  foldl_higher s.priority (L.overlapping idx) prio

/-- What characterises the highest priority. -/
theorem highestPriority_eq {s : ChunkManager} {idx : ℕ} {prio p : Priority}
    (hone : p = prio ∨ ∃ f ∈ L.overlapping idx, s.priority f.index = p)
    (hle : prio.value ≤ p.value)
    (hall : ∀ f ∈ L.overlapping idx, (s.priority f.index).value ≤ p.value) :
    highestPriority L s idx prio = p := by
  obtain ⟨hone', hle', hall'⟩ := highestPriority_spec L s idx prio
  refine value_injective _ _ (le_antisymm ?_ ?_)
  · rcases hone' with h | ⟨f, hf, h⟩
    · rw [h]
      exact hle
    · rw [← h]
      exact hall f hf
  · rcases hone with rfl | ⟨f, hf, rfl⟩
    · exact hle'
    · exact hall' f hf

/-- Starting from the priority of a file of the chunk adds nothing. -/
theorem highestPriority_of_mem {s : ChunkManager} {idx : ℕ} {f : TorrentFile}
    (hf : f ∈ L.overlapping idx) :
    highestPriority L s idx (s.priority f.index) = highestPriority L s idx .excluded := by
  obtain ⟨hone, -, hall⟩ := highestPriority_spec L s idx .excluded
  refine highestPriority_eq ?_ (hall f hf) hall
  rcases hone with hone | hone
  · left
    have hle := hall f hf
    rw [hone] at hle ⊢
    generalize s.priority f.index = p at hle
    cases p <;> first | rfl | exact absurd hle (by decide)
  · exact .inr hone

theorem highestPriority_congr {s t : ChunkManager} (h : t.priority = s.priority) (idx : ℕ)
    (prio : Priority) : highestPriority L t idx prio = highestPriority L s idx prio := by
  rw [highestPriority, highestPriority, h]

/-- The priority given to a chunk of the file is the highest one in every case. -/
theorem highestPriority_alone {s : ChunkManager} {i : ℕ} {p : Priority}
    (h : ∀ f ∈ L.overlapping i, s.priority f.index = p) : highestPriority L s i p = p :=
  highestPriority_eq (.inl rfl) le_rfl fun f hf => (congrArg Priority.value (h f hf)).le

@[simp] theorem highestPriority_setBorderChunkPriority (s : ChunkManager) (idx : ℕ) (prio : Priority)
    (i : ℕ) (p : Priority) :
    highestPriority L (s.setBorderChunkPriority L idx prio) i p = highestPriority L s i p := rfl

instance (s : ChunkManager) (tf : TorrentFile) (i : ℕ) : Decidable (TakenOut L s tf i) :=
  inferInstanceAs (Decidable ((if tf.firstChunk = tf.lastChunk then
      i = tf.firstChunk ∧ keepsChunk L s tf tf.firstChunk = false
    else newFirst L s tf ≤ i ∧ i ≤ newLast L s tf) ∧ i < L.numChunks))

/-! ## What can be seen of a chunk -/

/-- Something that can be seen of chunk `i`, and what the operations of the manager make of it. -/
structure ChunkView (L : Layout) (cfg : PreviewConfig) (i : ℕ) (β : Type) where
  view : ChunkManager → β
  given : Priority → β → β
  included : β → β
  reset : β → β
  gone : β
  withPriority : ∀ s tf p, view (s.withPriority tf p) = view s
  prioritise : ∀ s a b p, view (s.prioritise L a b p) =
    if min a b ≤ i ∧ i ≤ max a b then given p (view s) else view s
  exclude : ∀ s a b, a ≤ b → view (s.exclude L a b) = if a ≤ i ∧ i ≤ b then gone else view s
  include_ : ∀ s a b, a ≤ b →
    view (s.include_ L a b) = if a ≤ i ∧ i ≤ b then included (view s) else view s
  resetChunk_self : ∀ s, s.duringLoad = false → view (s.resetChunk L i) = reset (view s)
  resetChunk_of_ne : ∀ s j, i ≠ j → view (s.resetChunk L j) = view s
  doPreviewPriority : ∀ s f, view (s.doPreviewPriority L cfg f) = view s
  savePriorityInfo : ∀ s, view (s.savePriorityInfo L) = view s

namespace ChunkView

variable {i : ℕ} {β : Type} (V : ChunkView L cfg i β)

theorem resetChunk {s : ChunkManager} (hload : s.duringLoad = false) (j : ℕ) :
    V.view (s.resetChunk L j) = if i = j then V.reset (V.view s) else V.view s := by
  split
  case isTrue h => exact h ▸ V.resetChunk_self s hload
  case isFalse h => exact V.resetChunk_of_ne s j h

theorem resetChunks {l : List ℕ} (hi : i ∉ l) : ∀ {s : ChunkManager},
    V.view (l.foldl (ChunkManager.resetChunk L) s) = V.view s := by
  induction l with
  | nil => intro s; rfl
  | cons j l ih =>
    intro s
    rw [List.mem_cons, not_or] at hi
    rw [List.foldl_cons, ih hi.2, V.resetChunk_of_ne s j hi.1]

/-! ### A priority other than `EXCLUDED` -/

/-- The end of a file: a border chunk gets the highest priority of its files. -/
theorem setEnd (s : ChunkManager) (idx : ℕ) (p : Priority) :
    V.view (s.setBorderChunkPriority L idx p) =
      if i = idx then V.given (highestPriority L s i p) (V.view s) else V.view s := by
  rw [setBorderChunkPriority_eq, V.prioritise]
  by_cases h : i = idx
  · subst h
    simp
  · rw [if_neg h, if_neg (by omega)]

/-- The part of `downloadPriorityChanged` that gives the chunks of a file their priorities. -/
theorem setFilePriority (s : ChunkManager) {first last : ℕ} (hle : first ≤ last) (p : Priority) :
    V.view (if first = last then
        if isBorderChunk L first then s.setBorderChunkPriority L first p
        else s.prioritise L first first p
      else
        let (first', s') :=
          if isBorderChunk L first then (first + 1, s.setBorderChunkPriority L first p)
          else (first, s)
        let (last', s'') :=
          if isBorderChunk L last then (last - 1, s'.setBorderChunkPriority L last p)
          else (last, s')
        if first' ≤ last' then s''.prioritise L first' last' p else s'') =
      if first ≤ i ∧ i ≤ last then
        V.given
          (if isBorderChunk L i = true ∧ (i = first ∨ i = last) then highestPriority L s i p else p)
          (V.view s)
      else V.view s := by
  by_cases hone : first = last
  · subst hone
    rw [if_pos rfl]
    by_cases hb : isBorderChunk L first = true
    · rw [if_pos hb, V.setEnd]
      by_cases h : i = first
      · subst h
        simp [hb]
      · rw [if_neg h, if_neg (by omega)]
    · rw [if_neg hb, V.prioritise]
      by_cases h : i = first
      · subst h
        simp [hb]
      · rw [if_neg (by omega), if_neg (by omega)]
  · rw [if_neg hone]
    -- the ends, and the range that is left between them
    have hmid : ∀ (t : ChunkManager) (first' last' : ℕ),
        V.view (if first' ≤ last' then t.prioritise L first' last' p else t) =
          if first' ≤ i ∧ i ≤ last' then V.given p (V.view t) else V.view t := by
      intro t first' last'
      by_cases h : first' ≤ last'
      · rw [if_pos h, V.prioritise, min_eq_left h, max_eq_right h]
      · rw [if_neg h, if_neg (by omega)]
    by_cases hf : isBorderChunk L first = true <;> by_cases hl : isBorderChunk L last = true <;>
      simp only [hf, hl, if_true, if_false, Bool.false_eq_true, hmid, V.setEnd,
        highestPriority_setBorderChunkPriority]
    -- the chunk is one of the ends, lies between them, or is not of the file
    all_goals grind

theorem downloadStatusChanged (s : ChunkManager) {tf : TorrentFile} (htf : tf ∈ L.files) :
    V.view (s.downloadStatusChanged L cfg tf true) =
      if tf.firstChunk ≤ i ∧ i ≤ tf.lastChunk then V.included (V.view s) else V.view s := by
  rw [← V.include_ s _ _ (L.ordered.first_le_last tf htf), ChunkManager.downloadStatusChanged,
    if_pos rfl]
  dsimp only
  rw [V.savePriorityInfo]
  split
  · rw [V.doPreviewPriority]
  · rfl

theorem downloadPriorityChanged (s : ChunkManager) {tf : TorrentFile} (htf : tf ∈ L.files)
    {p : Priority} (hp : p ≠ .excluded) (hprio : s.priority tf.index = p) (old : Priority) :
    V.view (s.downloadPriorityChanged L cfg tf p old) =
      if tf.firstChunk ≤ i ∧ i ≤ tf.lastChunk then
        V.given (highestPriority L s i p)
          (if old = .excluded ∨ old = .onlySeed then V.included (V.view s) else V.view s)
      else V.view s := by
  have hle := L.ordered.first_le_last tf htf
  unfold ChunkManager.downloadPriorityChanged
  rw [if_neg hp]
  dsimp only
  set s₁ := (if old = .excluded then s.downloadStatusChanged L cfg tf true else s) with hs₁
  set s₂ := s₁.savePriorityInfo L with hs₂
  set s₃ := (if old = .onlySeed then s₂.include_ L tf.firstChunk tf.lastChunk else s₂) with hs₃
  -- the chunks of the file are included once, if at all
  have h₃ : s₃.priority = s.priority ∧ V.view s₃ =
      if (old = .excluded ∨ old = .onlySeed) ∧ tf.firstChunk ≤ i ∧ i ≤ tf.lastChunk then
        V.included (V.view s)
      else V.view s := by
    have hsave : s₂.priority = s₁.priority ∧ V.view s₂ = V.view s₁ :=
      ⟨(savePriorityInfo_same s₁).priority, by rw [hs₂, V.savePriorityInfo]⟩
    by_cases hex : old = .excluded
    · have hincl : s₁ = s.downloadStatusChanged L cfg tf true := by rw [hs₁, if_pos hex]
      rw [hs₃, if_neg (by rw [hex]; decide), hsave.1, hsave.2, hincl,
        V.downloadStatusChanged s htf]
      exact ⟨(downloadStatusChanged_includes s hle).priority, by simp [hex]⟩
    · have hsame : s₁ = s := by rw [hs₁, if_neg hex]
      rw [hs₃]
      by_cases hseed : old = .onlySeed
      · rw [if_pos hseed, V.include_ s₂ _ _ hle, hsave.2, hsame]
        exact ⟨hsave.1.trans (congrArg _ hsame), by simp [hseed]⟩
      · rw [if_neg hseed, hsave.2, hsame]
        exact ⟨hsave.1.trans (congrArg _ hsame), by simp [hex, hseed]⟩
  have h₄ := V.setFilePriority s₃ hle p
  have hview : ∀ t : ChunkManager,
      V.view (if cfg.isMultimedia tf.index then t.doPreviewPriority L cfg tf else t) = V.view t := by
    intro t
    split
    · rw [V.doPreviewPriority]
    · rfl
  rw [hview, h₄, h₃.2, highestPriority_congr h₃.1]
  by_cases hr : tf.firstChunk ≤ i ∧ i ≤ tf.lastChunk
  · have hhighest : (if isBorderChunk L i = true ∧ (i = tf.firstChunk ∨ i = tf.lastChunk) then
        highestPriority L s i p else p) = highestPriority L s i p := by
      split
      next => rfl
      next hnot =>
        have halone := Layout.alone htf hr hnot
        exact (highestPriority_alone fun f hf => (congrArg s.priority (halone f hf)).trans hprio).symm
    rw [if_pos hr, if_pos hr, hhighest]
    by_cases hold : old = .excluded ∨ old = .onlySeed
    · rw [if_pos ⟨hold, hr⟩, if_pos hold]
    · rw [if_neg fun hc => hold hc.1, if_neg hold]
  · rw [if_neg hr, if_neg hr, if_neg fun hc => hr hc.2]

/-! ### Excluding a file -/

theorem resetEnd {s : ChunkManager} (hload : s.duringLoad = false) (idx : ℕ) (tf : TorrentFile) :
    V.view (s.resetEnd L idx tf).2 =
      if i = idx then
        if keepsChunk L s tf idx then V.given (highestPriority L s i .excluded) (V.view s)
        else V.reset (V.view s)
      else V.view s := by
  unfold ChunkManager.resetEnd keepsChunk
  cases hb : isBorderChunk L idx with
  | false => simpa using V.resetChunk hload idx
  | true =>
    rw [if_pos rfl, Bool.true_and]
    cases hn : neededByOther L s tf idx with
    | false =>
      rw [resetBorderChunk_of_not_needed hn]
      simpa using V.resetChunk hload idx
    | true =>
      obtain ⟨other, hmem, hother⟩ := resetBorderChunk_of_needed hn
      rw [hother, if_pos rfl]
      dsimp only
      rw [V.setEnd s idx _]
      by_cases h : i = idx
      · subst h
        rw [if_pos rfl, if_pos rfl, highestPriority_of_mem hmem]
      · rw [if_neg h, if_neg h]

/-- The first chunk of a file is reset or gets the highest priority of the other files; the chunks
between the ends are reset. -/
theorem resetFirst {s : ChunkManager} (hload : s.duringLoad = false) {tf : TorrentFile}
    (hi : ¬ (tf.firstChunk < i ∧ i < tf.lastChunk)) :
    V.view ((resetInner L s tf).resetEnd L tf.firstChunk tf).2 =
      if i = tf.firstChunk then
        if keepsChunk L s tf tf.firstChunk then
          V.given (highestPriority L s i .excluded) (V.view s)
        else V.reset (V.view s)
      else V.view s := by
  have hinner := resetInner_resets (L := L) hload tf
  have hview : V.view (resetInner L s tf) = V.view s := by
    refine V.resetChunks fun hc => hi ?_
    rw [List.mem_range'_1] at hc
    omega
  rw [V.resetEnd (hinner.load.trans hload), keepsChunk_congr hinner.priority,
    highestPriority_congr hinner.priority, hview]

/-- Both ends. -/
theorem resetEnds {s : ChunkManager} (hload : s.duringLoad = false) {tf : TorrentFile}
    (hlt : tf.firstChunk < tf.lastChunk)
    (hi : ¬ (newFirst L s tf ≤ i ∧ i ≤ newLast L s tf)) :
    V.view (ChunkManager.resetEnds L s tf) =
      if tf.firstChunk ≤ i ∧ i ≤ tf.lastChunk then
        V.given (highestPriority L s i .excluded) (V.view s)
      else V.view s := by
  obtain ⟨hnf₁, hnf₂⟩ := newFirst_bounds (L := L) s tf
  obtain ⟨hnl₁, hnl₂⟩ := newLast_bounds (L := L) s tf
  obtain ⟨-, hres⟩ := resetFirst_spec (L := L) hload tf
  have hinner : ¬ (tf.firstChunk < i ∧ i < tf.lastChunk) := by omega
  have hfirst := V.resetFirst hload hinner
  have hlast := V.resetEnd (hres.load.trans hload) tf.lastChunk tf
  rw [keepsChunk_congr hres.priority, highestPriority_congr hres.priority] at hlast
  have hother : i ≠ tf.lastChunk → V.view (ChunkManager.resetEnds L s tf) =
      V.view ((resetInner L s tf).resetEnd L tf.firstChunk tf).2 := by
    intro hne
    unfold ChunkManager.resetEnds
    dsimp only
    split
    · rw [hlast, if_neg hne]
    · rfl
  by_cases hr : tf.firstChunk ≤ i ∧ i ≤ tf.lastChunk
  · rw [if_pos hr]
    rcases Nat.eq_or_lt_of_le hr.1 with rfl | hgt
    · -- the first chunk, which another file needs
      have hk : keepsChunk L s tf tf.firstChunk = true := by
        by_contra hk
        have hnf : newFirst L s tf = tf.firstChunk := by rw [newFirst, if_neg hk]
        omega
      rw [hother hlt.ne, hfirst, if_pos rfl, hk, if_pos rfl]
    · -- the last one
      have hil : i = tf.lastChunk := by omega
      subst hil
      have hk : tf.lastChunk ≠ newFirst L s tf ∧ keepsChunk L s tf tf.lastChunk = true := by
        by_contra hk
        have hnl : newLast L s tf = tf.lastChunk := by rw [newLast, if_neg hk]
        omega
      unfold ChunkManager.resetEnds
      dsimp only
      rw [if_pos hk.1, hlast, if_pos rfl, hk.2, if_pos rfl, hfirst, if_neg hgt.ne']
  · rw [if_neg hr, hother (by omega), hfirst, if_neg (by omega)]

/-- Excluding a file: what is taken out is gone, and an end that is kept gets the highest priority
of the other files. -/
theorem excludeFile {s : ChunkManager} (hload : s.duringLoad = false) {tf : TorrentFile}
    (hle : tf.firstChunk ≤ tf.lastChunk) (hi : i < L.numChunks) :
    V.view (s.excludeFile L tf) =
      if tf.firstChunk ≤ i ∧ i ≤ tf.lastChunk then
        if TakenOut L s tf i then V.gone
        else V.given (highestPriority L s i .excluded) (V.view s)
      else V.view s := by
  by_cases hone : tf.firstChunk = tf.lastChunk
  · obtain ⟨hflag, -⟩ := resetEnd_spec (L := L) hload tf.firstChunk tf
    have hview := V.resetEnd hload tf.firstChunk tf
    unfold ChunkManager.excludeFile TakenOut
    simp only [if_pos hone, hflag]
    cases hk : keepsChunk L s tf tf.firstChunk with
    | true =>
      rw [hk] at hview
      simp only [Bool.not_true, Bool.false_eq_true, if_false, and_false, false_and, hview, if_true,
        Bool.true_eq_false]
      grind
    | false =>
      rw [hk] at hview
      simp only [Bool.not_false, if_true, V.exclude _ _ _ hle, hview, and_true]
      grind
  · have hkept := V.resetEnds hload (lt_of_le_of_ne hle hone)
    obtain ⟨hnf, -⟩ := newFirst_bounds (L := L) s tf
    obtain ⟨-, hnl⟩ := newLast_bounds (L := L) s tf
    have hview : V.view (s.excludeFile L tf) =
        if newFirst L s tf ≤ i ∧ i ≤ newLast L s tf then V.gone
        else V.view (ChunkManager.resetEnds L s tf) := by
      rw [excludeFile_of_ne hload hone]
      by_cases h : newFirst L s tf ≤ newLast L s tf
      · rw [if_pos h, V.exclude _ _ _ h]
      · rw [if_neg h, if_neg (by omega)]
    have hiff : TakenOut L s tf i ↔ newFirst L s tf ≤ i ∧ i ≤ newLast L s tf := by
      unfold TakenOut
      rw [if_neg hone]
      exact and_iff_left hi
    rw [hview]
    by_cases htaken : newFirst L s tf ≤ i ∧ i ≤ newLast L s tf
    · rw [if_pos htaken, if_pos (by omega), if_pos (hiff.mpr htaken)]
    · rw [if_neg htaken, hkept htaken, if_neg (mt hiff.mp htaken)]

/-- **One change**, as it is seen. -/
theorem changePriority {s : ChunkManager} (hload : s.duringLoad = false) {tf : TorrentFile}
    (htf : tf ∈ L.files) (hi : i < L.numChunks) (p : Priority) :
    V.view (s.changePriority L cfg tf p) =
      if tf.firstChunk ≤ i ∧ i ≤ tf.lastChunk then
        if p = .excluded ∧ TakenOut L (s.withPriority tf p) tf i then V.gone
        else V.given (highestPriority L (s.withPriority tf p) i p)
          (if p ≠ .excluded ∧ (s.priority tf.index = .excluded ∨ s.priority tf.index = .onlySeed) then
            V.included (V.view s) else V.view s)
      else V.view s := by
  have hle := L.ordered.first_le_last tf htf
  by_cases hp : p = .excluded
  · subst hp
    have hexclude := V.excludeFile (s := s.withPriority tf .excluded) hload hle hi
    have hsave := V.savePriorityInfo ((s.withPriority tf .excluded).excludeFile L tf)
    rw [V.withPriority] at hexclude
    refine hsave.trans (hexclude.trans ?_)
    simp only [true_and, ne_eq, not_true_eq_false, false_and, if_false]
  · have hchange := V.downloadPriorityChanged (s.withPriority tf p) htf hp
      (withPriority_self s tf p) (s.priority tf.index)
    rw [V.withPriority] at hchange
    refine hchange.trans ?_
    simp only [hp, false_and, if_false, ne_eq, not_false_eq_true, true_and]

end ChunkView

/-- The four bits of a chunk, as they are seen. -/
def entryView (L : Layout) (cfg : PreviewConfig) {i : ℕ} (hi : i < L.numChunks) :
    ChunkView L cfg i ChunkEntry where
  view := fun s => s.entry i
  given := fun p e => e.given false p
  included := ChunkEntry.include_
  reset := ChunkEntry.reset
  gone := .gone
  withPriority := fun _ _ _ => rfl
  prioritise := fun s a b p => prioritise_entry s a b p hi
  exclude := fun s _ _ hab => exclude_entry s hab hi
  include_ := fun s _ _ hab => include_entry s hab hi
  resetChunk_self := fun s hload => by rw [resetChunk_entry hload i hi, if_pos rfl]
  resetChunk_of_ne := fun s j hj => by
    rw [ChunkManager.resetChunk]
    split
    · rfl
    · simp only [entry, Function.update_of_ne hj]
  doPreviewPriority := fun s f => congrFun (doPreviewPriority_entry s f) i
  savePriorityInfo := fun s => congrFun (savePriorityInfo_entry s) i

/-! ## Changes -/

/-- What a change of a file's priority to `p` does: every chunk of the file gets the highest
priority of its files, but those taken out with a file that is excluded. -/
structure Changes (L : Layout) (s t : ChunkManager) (tf : TorrentFile) (p : Priority) : Prop where
  priority : t.priority = Function.update s.priority tf.index p
  load : t.duringLoad = s.duringLoad
  entry : ∀ i < L.numChunks, t.entry i =
    if tf.firstChunk ≤ i ∧ i ≤ tf.lastChunk then
      if p = .excluded ∧ TakenOut L (s.withPriority tf p) tf i then .gone
      else (s.entry i).given
        (p != .excluded && (s.priority tf.index == .excluded || s.priority tf.index == .onlySeed))
        (highestPriority L (s.withPriority tf p) i p)
    else s.entry i

variable (cfg) in
/-- **One change.** -/
theorem changePriority_changes {s : ChunkManager} (hload : s.duringLoad = false)
    {tf : TorrentFile} (htf : tf ∈ L.files) (p : Priority) :
    Changes L s (s.changePriority L cfg tf p) tf p := by
  have hle := L.ordered.first_le_last tf htf
  have hfields : (s.changePriority L cfg tf p).priority = Function.update s.priority tf.index p ∧
      (s.changePriority L cfg tf p).duringLoad = s.duringLoad := by
    by_cases hp : p = .excluded
    · subst hp
      have h := changePriority_excluded L cfg hload hle
      exact ⟨h.priority, h.load⟩
    · have h := changePriority_included L cfg s hle hp
      exact ⟨h.priority, h.load⟩
  refine ⟨hfields.1, hfields.2, fun i hi => ?_⟩
  refine ((entryView L cfg hi).changePriority hload htf hi p).trans ?_
  by_cases hincl : p ≠ .excluded ∧ (s.priority tf.index = .excluded ∨ s.priority tf.index = .onlySeed)
  · have hb : (p != .excluded &&
        (s.priority tf.index == .excluded || s.priority tf.index == .onlySeed)) = true := by
      simpa using hincl
    rw [if_pos hincl, hb]
    simp only [entryView, ChunkEntry.given_include]
  · have hb : (p != .excluded &&
        (s.priority tf.index == .excluded || s.priority tf.index == .onlySeed)) = false := by
      simpa using hincl
    rw [if_neg hincl, hb]
    rfl

/-- A file that was excluded first becomes a normal one, which the second change does away with. -/
theorem Changes.trans {s t u : ChunkManager} {tf : TorrentFile} {p : Priority}
    (hs : s.priority tf.index = .excluded) (hp : p ≠ .excluded) (h : Changes L s t tf .normal)
    (h' : Changes L t u tf p) : Changes L s u tf p := by
  have hprio : u.priority = Function.update s.priority tf.index p := by
    rw [h'.priority, h.priority, Function.update_idem]
  refine ⟨hprio, h'.load.trans h.load, fun i hi => ?_⟩
  have hhighest : highestPriority L (t.withPriority tf p) i p =
      highestPriority L (s.withPriority tf p) i p := by
    refine highestPriority_congr ?_ i p
    rw [withPriority, withPriority]
    dsimp only
    rw [h.priority, Function.update_idem]
  have hold : t.priority tf.index = .normal := by rw [h.priority, Function.update_self]
  have hb : (p != .excluded) = true := by simpa using hp
  rw [h'.entry i hi, h.entry i hi, hhighest, hold, hs, hb]
  by_cases hr : tf.firstChunk ≤ i ∧ i ≤ tf.lastChunk
  · simp [hr, hp, ChunkEntry.given]
  · simp only [if_neg hr]

/-- The priority that a call gives to its file, if it changes it. -/
def PriorityCall.newPriority (s : ChunkManager) (call : PriorityCall L) : Option Priority :=
  match call with
  | .setPriority _ p => if s.priority call.file.index ≠ p then some p else none
  | .setDoNotDownload _ true =>
    if s.priority call.file.index = .excluded then none else some .excluded
  | .setDoNotDownload _ false =>
    if s.priority call.file.index = .excluded then some .normal else none

variable (cfg) in
/-- A call makes one change, or none; a file that is excluded is included first. -/
theorem applyCall_cases (s : ChunkManager) (call : PriorityCall L) :
    (call.newPriority s = none ∧ s.applyCall L cfg call = s) ∨
      ∃ p, call.newPriority s = some p ∧
        (s.applyCall L cfg call = s.changePriority L cfg call.file p ∨
          (s.priority call.file.index = .excluded ∧ p ≠ .excluded ∧ s.applyCall L cfg call =
            (s.changePriority L cfg call.file .normal).changePriority L cfg call.file p)) := by
  cases call with
  | setPriority i p =>
    rw [PriorityCall.newPriority, PriorityCall.file, applyCall, setPriority]
    by_cases hp : s.priority L.files[i].index ≠ p
    · rw [if_pos hp, if_pos hp]
      refine .inr ⟨p, rfl, ?_⟩
      by_cases hex : s.priority L.files[i].index = .excluded
      · have hpne : p ≠ .excluded := fun hc => hp (hex.trans hc.symm)
        rw [if_pos hex, if_neg hpne, setDoNotDownload_false, if_pos hex]
        exact .inr ⟨hex, hpne, rfl⟩
      · rw [if_neg hex]
        by_cases hpe : p = .excluded
        · rw [if_pos hpe, setDoNotDownload_true, if_neg hex, hpe]
          exact .inl rfl
        · rw [if_neg hpe]
          exact .inl rfl
    · rw [if_neg hp, if_neg hp]
      exact .inl ⟨rfl, rfl⟩
  | setDoNotDownload i dnd =>
    cases dnd with
    | true =>
      rw [PriorityCall.newPriority, PriorityCall.file, applyCall, setDoNotDownload_true]
      by_cases hex : s.priority L.files[i].index = .excluded
      · rw [if_pos hex, if_pos hex]
        exact .inl ⟨rfl, rfl⟩
      · rw [if_neg hex, if_neg hex]
        exact .inr ⟨.excluded, rfl, .inl rfl⟩
    | false =>
      rw [PriorityCall.newPriority, PriorityCall.file, applyCall, setDoNotDownload_false]
      by_cases hex : s.priority L.files[i].index = .excluded
      · rw [if_pos hex, if_pos hex]
        exact .inr ⟨.normal, rfl, .inl rfl⟩
      · rw [if_neg hex, if_neg hex]
        exact .inl ⟨rfl, rfl⟩

variable (cfg) in
/-- **A call is one change, or none.** -/
theorem applyCall_changes {s : ChunkManager} (hload : s.duringLoad = false)
    (call : PriorityCall L) :
    (call.newPriority s = none ∧ s.applyCall L cfg call = s) ∨
      ∃ p, call.newPriority s = some p ∧ Changes L s (s.applyCall L cfg call) call.file p := by
  have htf := call.file_mem
  refine (applyCall_cases cfg s call).imp_right fun ⟨p, hp, hcall⟩ => ⟨p, hp, ?_⟩
  rcases hcall with hone | ⟨hex, hpne, htwo⟩
  · rw [hone]
    exact changePriority_changes cfg hload htf p
  · have hfirst := changePriority_changes cfg hload htf .normal
    rw [htwo]
    exact hfirst.trans hex hpne (changePriority_changes cfg (hfirst.load.trans hload) htf p)

/-! ## Priorities to download with -/

end ChunkManager
end KTorrent
