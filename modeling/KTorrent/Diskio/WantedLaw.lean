import KTorrent.Diskio.ExclusionLaw
import KTorrent.Diskio.WantedChunks

/-!
# The chunks that are wanted

The set of chunks to do should be what is left of the three other sets, and a
chunk that files share should only be seeded when none of them wants more.

* `WantedLaw` — the law, with what it means for `completed`.
* `KeepsWanted` — the changes of priority that keep it: no chunk that is excluded
  and not downloaded gets a priority with which it would be downloaded, no chunk
  that is only seeded is excluded by the check that `downloadStatusChanged` skips,
  and no empty file speaks for a chunk that the others only seed.
* `wantedLaw_changes_iff` — a change keeps the law exactly when it is of this kind.
* `markExistingFilesAsDownloaded_isSome_iff` — the files that were there are marked
  exactly when none is an empty file behind the last chunk.
* `allSteps_wanted_iff` — so the law holds along a run exactly when all changes are of
  this kind, and no such file is found.
-/

namespace KTorrent

open Runs

/-! ## The law -/

namespace ChunkManager

variable {L : Layout} {cfg : PreviewConfig}

/-- `p` is the highest priority of the files of chunk `i`. -/
def IsHighest (L : Layout) (s : ChunkManager) (i : ℕ) (p : Priority) : Prop :=
  (∃ f ∈ L.overlapping i, s.priority f.index = p) ∧
    ∀ f ∈ L.overlapping i, (s.priority f.index).value ≤ p.value

/-- The chunk belongs to several files that are not all excluded. -/
def SharedAndNeeded (L : Layout) (s : ChunkManager) (i : ℕ) : Prop :=
  2 ≤ (L.overlapping i).length ∧ ∃ f ∈ L.overlapping i, s.priority f.index ≠ .excluded

/-- A chunk is to do when it is not downloaded, not excluded and not only seeded; a chunk that
several files share and some need is only seeded when that is their highest priority; and the
manager is done when no wanted chunk is missing and some chunk is downloaded. -/
structure WantedLaw (L : Layout) (s : ChunkManager) : Prop where
  todo_iff : ∀ i < L.numChunks, s.todo i = true ↔
    s.bitset i = false ∧ s.excludedChunks i = false ∧ s.onlySeedChunks i = false
  onlySeed_iff : ∀ i < L.numChunks, SharedAndNeeded L s i →
    (s.onlySeedChunks i = true ↔ IsHighest L s i .onlySeed)
  completed_iff : s.completed L = true ↔
    (∀ i < L.numChunks, s.excludedChunks i = false → s.onlySeedChunks i = false →
      s.bitset i = true) ∧ ∃ i < L.numChunks, s.bitset i = true

/-- The law for a single chunk. -/
structure ChunkLaw (L : Layout) (s : ChunkManager) (i : ℕ) : Prop where
  todo_iff : s.todo i = true ↔
    s.bitset i = false ∧ s.excludedChunks i = false ∧ s.onlySeedChunks i = false
  onlySeed_iff : SharedAndNeeded L s i → (s.onlySeedChunks i = true ↔ IsHighest L s i .onlySeed)

theorem completed_iff_of_todo {s : ChunkManager} (h : ∀ i < L.numChunks, s.todo i = true ↔
    s.bitset i = false ∧ s.excludedChunks i = false ∧ s.onlySeedChunks i = false) :
    s.completed L = true ↔
      (∀ i < L.numChunks, s.excludedChunks i = false → s.onlySeedChunks i = false →
        s.bitset i = true) ∧ ∃ i < L.numChunks, s.bitset i = true := by
  simp only [completed, Bool.and_eq_true, beq_iff_eq, decide_eq_true_eq, List.countP_eq_zero,
    List.countP_pos_iff, List.mem_range]
  refine and_congr_left fun _ => forall₂_congr fun i hi => ?_
  rw [h i hi]
  cases s.bitset i <;> simp

/-- The law is a law for every chunk. -/
theorem wantedLaw_iff {s : ChunkManager} :
    WantedLaw L s ↔ ∀ i < L.numChunks, ChunkLaw L s i := by
  constructor
  · intro h i hi
    exact ⟨h.todo_iff i hi, h.onlySeed_iff i hi⟩
  · intro h
    have htodo := fun i hi => (h i hi).todo_iff
    exact ⟨htodo, fun i hi => (h i hi).onlySeed_iff, completed_iff_of_todo htodo⟩

/-! ## Highest priorities -/

theorem isHighest_iff {s : ChunkManager} {i : ℕ} {p : Priority} (hp : p ≠ .excluded) :
    IsHighest L s i p ↔ highestPriority L s i .excluded = p := by
  constructor
  · rintro ⟨hone, hall⟩
    refine highestPriority_eq (.inr hone) ?_ hall
    cases p <;> decide
  · rintro rfl
    obtain ⟨hone, -, hall⟩ := highestPriority_spec L s i .excluded
    exact ⟨hone.resolve_left hp, hall⟩

theorem highestPriority_ne_excluded {s : ChunkManager} {i : ℕ} {f : TorrentFile}
    (hf : f ∈ L.overlapping i) (hp : s.priority f.index ≠ .excluded) (p : Priority) :
    highestPriority L s i p ≠ .excluded := by
  intro hc
  have hle := (highestPriority_spec L s i p).2.2 f hf
  rw [hc] at hle
  revert hle hp
  generalize s.priority f.index = q
  cases q <;> decide

theorem wanted_iff {p : Priority} (hp : p ≠ .excluded) :
    p.wanted = true ↔ p ≠ .onlySeed := by
  revert hp
  cases p <;> decide

/-! ## Changes that keep the law -/

/-- The change excludes a file of two chunks that others need both: its first chunk is kept, and
then the last one is not looked at. -/
def SkipsLast (L : Layout) (s : ChunkManager) (tf : TorrentFile) : Prop :=
  tf.lastChunk = tf.firstChunk + 1 ∧ keepsChunk L s tf tf.firstChunk = true ∧
    keepsChunk L s tf tf.lastChunk = true

/-- The changes of the priority of `tf` to `p` that keep the law. -/
structure KeepsWanted (L : Layout) (s : ChunkManager) (tf : TorrentFile) (p : Priority) : Prop where
  /-- A chunk that is excluded and not downloaded gets no priority to be downloaded with, unless
  it is included before, or excluded again. -/
  excluded : ∀ i < L.numChunks, tf.firstChunk ≤ i ∧ i ≤ tf.lastChunk →
    s.excludedChunks i = true → s.bitset i = false →
    (highestPriority L (s.withPriority tf p) i p).wanted = true →
    (p ≠ .excluded ∧ (s.priority tf.index = .excluded ∨ s.priority tf.index = .onlySeed)) ∨
      (p = .excluded ∧ TakenOut L (s.withPriority tf p) tf i)
  /-- The chunk that is excluded unchecked is one that the other files want to download. -/
  skipped : p = .excluded → SkipsLast L (s.withPriority tf p) tf →
    ¬ IsHighest L (s.withPriority tf p) tf.lastChunk .onlySeed
  /-- An empty file is not to be downloaded where the files of the chunk are only seeded. -/
  empty : tf.size = 0 → p.wanted = true → SharedAndNeeded L s tf.firstChunk →
    ¬ IsHighest L s tf.firstChunk .onlySeed

variable {s t : ChunkManager} {tf : TorrentFile} {p : Priority} {i : ℕ}

theorem isHighest_congr (h : ∀ f ∈ L.overlapping i, t.priority f.index = s.priority f.index)
    (q : Priority) : IsHighest L t i q ↔ IsHighest L s i q := by
  refine and_congr ?_ ?_
  · exact exists_congr fun f => and_congr_right fun hf => by rw [h f hf]
  · exact forall₂_congr fun f hf => by rw [h f hf]

theorem sharedAndNeeded_congr
    (h : ∀ f ∈ L.overlapping i, t.priority f.index = s.priority f.index) :
    SharedAndNeeded L t i ↔ SharedAndNeeded L s i :=
  and_congr_right fun _ => exists_congr fun f => and_congr_right fun hf => by rw [h f hf]

/-- The files of a chunk in which `tf` has no data keep their priorities. -/
theorem Changes.priority_of_notMem (h : Changes L s t tf p) (htf : tf ∈ L.files)
    (hi : tf ∉ L.overlapping i) :
    ∀ f ∈ L.overlapping i, t.priority f.index = s.priority f.index := by
  intro f hf
  have hne : f.index ≠ tf.index := by
    intro hc
    have hget := L.getFile_index (Layout.mem_overlapping_range.mp hf).1
    rw [hc, L.getFile_index htf] at hget
    exact hi (Option.some.inj hget ▸ hf)
  rw [h.priority, Function.update_of_ne hne]

/-- Of a chunk that is excluded with the file, another file has need only where the check was
skipped. -/
theorem skipsLast_of_takenOut (htf : tf ∈ L.files) (ht : TakenOut L s tf i)
    (hex : s.priority tf.index = .excluded)
    (hi : tf.firstChunk ≤ i ∧ i ≤ tf.lastChunk)
    (hneeded : ∃ f ∈ L.overlapping i, s.priority f.index ≠ .excluded) :
    SkipsLast L s tf ∧ i = tf.lastChunk := by
  obtain ⟨f, hf, hp⟩ := hneeded
  have hne : f.index ≠ tf.index := fun hc => hp (hc ▸ hex)
  have hends : isBorderChunk L i = true ∧ (i = tf.firstChunk ∨ i = tf.lastChunk) := by
    by_contra hnot
    exact hne (Layout.alone htf hi hnot f hf)
  have hkeeps : keepsChunk L s tf i = true := by
    rw [keepsChunk, hends.1, Bool.true_and]
    exact List.any_eq_true.mpr ⟨f, hf, by simp [hne, hp]⟩
  obtain ⟨ht, -⟩ := ht
  by_cases hone : tf.firstChunk = tf.lastChunk
  · rw [if_pos hone] at ht
    rw [ht.1, ht.2] at hkeeps
    cases hkeeps
  · rw [if_neg hone] at ht
    have hle := L.ordered.first_le_last tf htf
    rcases hends.2 with rfl | rfl
    · -- a first chunk that is kept is not taken out
      rw [newFirst, if_pos hkeeps] at ht
      omega
    · -- nor is the last one, if it is looked at
      have hskip : tf.lastChunk = newFirst L s tf := by
        by_contra hc
        rw [newLast, if_pos ⟨hc, hkeeps⟩] at ht
        omega
      have hfirst : keepsChunk L s tf tf.firstChunk = true := by
        by_contra hc
        rw [newFirst, if_neg hc] at hskip
        omega
      rw [newFirst, if_pos hfirst] at hskip
      exact ⟨⟨hskip, hfirst, hkeeps⟩, rfl⟩

/-- Where the check is skipped, the last chunk is taken out although it is shared and needed. -/
theorem SkipsLast.takenOut (h : SkipsLast L s tf) (hlast : tf.lastChunk < L.numChunks) :
    TakenOut L s tf tf.lastChunk := by
  obtain ⟨htwo, hfirst, -⟩ := h
  have hnf : newFirst L s tf = tf.lastChunk := by rw [newFirst, if_pos hfirst, htwo]
  refine ⟨?_, hlast⟩
  rw [if_neg (by omega), newLast, hnf, if_neg (by simp)]
  exact ⟨le_rfl, le_rfl⟩

theorem two_le_length_of_ne {α : Type*} {l : List α} {a b : α} (ha : a ∈ l) (hb : b ∈ l)
    (hne : a ≠ b) : 2 ≤ l.length := by
  match l with
  | [] => cases ha
  | [c] =>
    rw [List.mem_singleton] at ha hb
    exact absurd (ha.trans hb.symm) hne
  | _ :: _ :: _ => exact Nat.le_add_left 2 _

theorem SkipsLast.sharedAndNeeded (h : SkipsLast L s tf) (htf : tf ∈ L.files) :
    SharedAndNeeded L s tf.lastChunk := by
  obtain ⟨htwo, -, hlast⟩ := h
  rw [keepsChunk, Bool.and_eq_true] at hlast
  obtain ⟨f, hf, hother⟩ := List.any_eq_true.mp hlast.2
  simp only [Bool.and_eq_true, bne_iff_ne] at hother
  have hsize : tf.size ≠ 0 := by
    intro hc
    have hex := L.exact_of_mem htf
    have hfirst := hex.firstChunk
    have hlast := hex.lastChunk
    rw [if_neg (by omega)] at hlast
    omega
  have hmem : tf ∈ L.overlapping tf.lastChunk :=
    Layout.mem_overlapping_range.mpr ⟨htf, ⟨by omega, le_rfl⟩, hsize⟩
  have hne : f ≠ tf := fun hc => hother.1 (congrArg TorrentFile.index hc)
  exact ⟨two_le_length_of_ne hf hmem hne, f, hf, hother.2⟩

/-- A chunk of the file that is not taken out with it is one that another file needs. -/
theorem needed_of_not_takenOut (hi : i < L.numChunks)
    (hr : tf.firstChunk ≤ i ∧ i ≤ tf.lastChunk) (ht : ¬ TakenOut L s tf i) :
    ∃ f ∈ L.overlapping i, s.priority f.index ≠ .excluded := by
  have hkeeps : keepsChunk L s tf i = true := by
    by_contra hk
    refine ht ⟨?_, hi⟩
    by_cases hone : tf.firstChunk = tf.lastChunk
    · obtain rfl : i = tf.firstChunk := by omega
      rw [if_pos hone]
      exact ⟨rfl, by simpa using hk⟩
    · rw [if_neg hone]
      obtain ⟨-, hnf⟩ := newFirst_bounds (L := L) s tf
      obtain ⟨hnl, -⟩ := newLast_bounds (L := L) s tf
      constructor
      · by_cases hfirst : i = tf.firstChunk
        · rw [newFirst, if_neg (hfirst ▸ hk)]
          omega
        · omega
      · by_cases hlast : i = tf.lastChunk
        · rw [newLast, if_neg fun hc => hk (hlast ▸ hc.2)]
          omega
        · omega
  rw [keepsChunk, Bool.and_eq_true] at hkeeps
  obtain ⟨f, hf, hother⟩ := List.any_eq_true.mp hkeeps.2
  simp only [Bool.and_eq_true, bne_iff_ne] at hother
  exact ⟨f, hf, hother.2⟩

/-! ### The three kinds of chunks -/

/-- A chunk that is not of the file. -/
theorem Changes.chunkLaw_outside (h : Changes L s t tf p) (htf : tf ∈ L.files)
    (hi : i < L.numChunks) (hr : ¬ (tf.firstChunk ≤ i ∧ i ≤ tf.lastChunk)) :
    ChunkLaw L t i ↔ ChunkLaw L s i := by
  have hentry := h.entry i hi
  rw [if_neg hr] at hentry
  simp only [ChunkManager.entry, ChunkEntry.mk.injEq] at hentry
  obtain ⟨hbitset, hexcl, hseed, htodo⟩ := hentry
  have hprio := h.priority_of_notMem htf fun hc => hr (Layout.mem_overlapping_range.mp hc).2.1
  have hlaw : ∀ u v : ChunkManager, u.bitset i = v.bitset i → u.excludedChunks i = v.excludedChunks i →
      u.onlySeedChunks i = v.onlySeedChunks i → u.todo i = v.todo i →
      (∀ f ∈ L.overlapping i, u.priority f.index = v.priority f.index) →
      ChunkLaw L v i → ChunkLaw L u i := by
    intro u v h₁ h₂ h₃ h₄ h₅ hv
    refine ⟨?_, fun hs => ?_⟩
    · rw [h₁, h₂, h₃, h₄]
      exact hv.todo_iff
    · rw [h₃, isHighest_congr h₅]
      exact hv.onlySeed_iff ((sharedAndNeeded_congr h₅).mp hs)
  exact ⟨hlaw s t hbitset.symm hexcl.symm hseed.symm htodo.symm fun f hf => (hprio f hf).symm,
    hlaw t s hbitset hexcl hseed htodo hprio⟩

/-- A chunk that is taken out. -/
theorem Changes.chunkLaw_taken (h : Changes L s t tf p) (hi : i < L.numChunks)
    (hr : tf.firstChunk ≤ i ∧ i ≤ tf.lastChunk)
    (ht : p = .excluded ∧ TakenOut L (s.withPriority tf p) tf i) :
    ChunkLaw L t i ↔ (SharedAndNeeded L t i → ¬ IsHighest L t i .onlySeed) := by
  have hentry := h.entry i hi
  rw [if_pos hr, if_pos ht] at hentry
  simp only [ChunkManager.entry, ChunkEntry.gone, ChunkEntry.mk.injEq] at hentry
  obtain ⟨hbitset, hexcl, hseed, htodo⟩ := hentry
  constructor
  · intro hlaw hs hhigh
    have htrue := (hlaw.onlySeed_iff hs).mpr hhigh
    rw [hseed] at htrue
    cases htrue
  · intro hnot
    refine ⟨by simp [hexcl, htodo], fun hs => ?_⟩
    rw [hseed]
    exact iff_of_false Bool.false_ne_true (hnot hs)

/-- A chunk that is given a priority. -/
theorem Changes.chunkLaw_given (h : Changes L s t tf p)
    (hi : i < L.numChunks) (hr : tf.firstChunk ≤ i ∧ i ≤ tf.lastChunk)
    (ht : ¬ (p = .excluded ∧ TakenOut L (s.withPriority tf p) tf i)) :
    ChunkLaw L t i ↔
      (s.excludedChunks i = true → s.bitset i = false →
        (highestPriority L (s.withPriority tf p) i p).wanted = true →
        p ≠ .excluded ∧ (s.priority tf.index = .excluded ∨ s.priority tf.index = .onlySeed)) ∧
      (SharedAndNeeded L t i →
        (highestPriority L (s.withPriority tf p) i p = .onlySeed ↔ IsHighest L t i .onlySeed)) := by
  have hentry := h.entry i hi
  rw [if_pos hr, if_neg ht] at hentry
  simp only [ChunkManager.entry, ChunkEntry.given, ChunkEntry.mk.injEq] at hentry
  obtain ⟨hbitset, hexcl, hseed, htodo⟩ := hentry
  have hq : highestPriority L (s.withPriority tf p) i p ≠ .excluded := by
    by_cases hp : p = .excluded
    · have hnot : ¬ TakenOut L (s.withPriority tf p) tf i := fun hc => ht ⟨hp, hc⟩
      obtain ⟨f, hf, hne⟩ := needed_of_not_takenOut hi hr hnot
      exact highestPriority_ne_excluded hf hne p
    · intro hc
      have hle := (highestPriority_spec L (s.withPriority tf p) i p).2.1
      rw [hc] at hle
      revert hle hp
      cases p <;> decide
  generalize highestPriority L (s.withPriority tf p) i p = q at hq hseed htodo ⊢
  have hwanted := wanted_iff hq
  have hincl : (p != .excluded && (s.priority tf.index == .excluded ||
      s.priority tf.index == .onlySeed)) = true ↔
      p ≠ .excluded ∧ (s.priority tf.index = .excluded ∨ s.priority tf.index = .onlySeed) := by
    simp
  rw [← hincl]
  generalize (p != .excluded && (s.priority tf.index == .excluded ||
      s.priority tf.index == .onlySeed)) = incl at hexcl ⊢
  have hseed' : t.onlySeedChunks i = true ↔ q = .onlySeed := by rw [hseed, beq_iff_eq]
  have htodo_iff : (t.todo i = true ↔
      t.bitset i = false ∧ t.excludedChunks i = false ∧ t.onlySeedChunks i = false) ↔
      (s.excludedChunks i = true → s.bitset i = false → q.wanted = true → incl = true) := by
    rw [← Bool.not_eq_true (t.onlySeedChunks i), hseed', htodo, hbitset, hexcl, ← ne_eq, ← hwanted]
    cases q.wanted <;> cases s.bitset i <;> cases s.excludedChunks i <;> cases incl <;> decide
  rw [← htodo_iff, ← hseed']
  exact ⟨fun hlaw => ⟨hlaw.todo_iff, hlaw.onlySeed_iff⟩, fun hlaw => ⟨hlaw.1, hlaw.2⟩⟩

/-! ### The change -/

theorem value_le_of_not_wanted (hp : p.wanted = false) : p.value ≤ Priority.onlySeed.value := by
  revert hp
  cases p <;> decide

theorem lt_value_of_wanted (hp : p.wanted = true) : Priority.onlySeed.value < p.value := by
  revert hp
  cases p <;> decide

theorem eq_onlySeed_of_le (hp : p ≠ .excluded) (hle : p.value ≤ Priority.onlySeed.value) :
    p = .onlySeed := by
  revert hp hle
  cases p <;> decide

theorem highestPriority_ne_onlySeed (hp : p.wanted = true) :
    highestPriority L s i p ≠ .onlySeed := by
  intro hc
  have hle := (highestPriority_spec L s i p).2.1
  rw [hc] at hle
  exact absurd (lt_value_of_wanted hp) (not_lt.mpr hle)

/-- A file without data in one of its chunks is empty, and has no other chunk. -/
theorem empty_of_notMem (htf : tf ∈ L.files) (hr : tf.firstChunk ≤ i ∧ i ≤ tf.lastChunk)
    (hi : tf ∉ L.overlapping i) : tf.size = 0 ∧ i = tf.firstChunk := by
  have hsize : tf.size = 0 := by
    by_contra hc
    exact hi (Layout.mem_overlapping_range.mpr ⟨htf, hr, hc⟩)
  have hex := L.exact_of_mem htf
  have hlast := hex.lastChunk
  rw [if_neg (by omega), ← hex.firstChunk] at hlast
  exact ⟨hsize, by omega⟩

/-- The priority given to a chunk is right, unless an empty file spoke for it. -/
theorem onlySeed_given (htf : tf ∈ L.files) (hr : tf.firstChunk ≤ i ∧ i ≤ tf.lastChunk)
    (hempty : tf.size = 0 → p.wanted = true → ¬ IsHighest L (s.withPriority tf p) i .onlySeed)
    (hneeded : ∃ f ∈ L.overlapping i, (s.withPriority tf p).priority f.index ≠ .excluded) :
    highestPriority L (s.withPriority tf p) i p = .onlySeed ↔
      IsHighest L (s.withPriority tf p) i .onlySeed := by
  by_cases hmem : tf ∈ L.overlapping i
  · have hsame := highestPriority_of_mem (s := s.withPriority tf p) hmem
    rw [withPriority_self] at hsame
    rw [hsame, isHighest_iff (by decide)]
  · obtain ⟨hsize, -⟩ := empty_of_notMem htf hr hmem
    cases hw : p.wanted with
    | true => exact iff_of_false (highestPriority_ne_onlySeed hw) (hempty hsize hw)
    | false =>
      constructor
      · intro hq
        obtain ⟨-, -, hall⟩ := highestPriority_spec L (s.withPriority tf p) i p
        rw [hq] at hall
        obtain ⟨f, hf, hne⟩ := hneeded
        exact ⟨⟨f, hf, eq_onlySeed_of_le hne (hall f hf)⟩, hall⟩
      · rintro ⟨hone, hall⟩
        exact highestPriority_eq (.inr hone) (value_le_of_not_wanted hw) hall

/-- **A change of priority keeps the law exactly when it is one that `KeepsWanted` allows.** -/
theorem Changes.wantedLaw_iff (h : Changes L s t tf p) (htf : tf ∈ L.files) (hs : WantedLaw L s) :
    WantedLaw L t ↔ KeepsWanted L s tf p := by
  have hs' := ChunkManager.wantedLaw_iff.mp hs
  have hprio : ∀ i, ∀ f ∈ L.overlapping i,
      t.priority f.index = (s.withPriority tf p).priority f.index :=
    fun i f _ => congrFun h.priority f.index
  -- a chunk with a file is one of the torrent
  have hlt : ∀ {i f}, f ∈ L.overlapping i → i < L.numChunks := by
    intro i f hf
    obtain ⟨hmem, hrange, hsize⟩ := Layout.mem_overlapping_range.mp hf
    exact hrange.2.trans_lt (L.lastChunk_lt hmem (Nat.pos_of_ne_zero hsize))
  rw [ChunkManager.wantedLaw_iff]
  constructor
  · intro hlaw
    refine ⟨fun i hi hr hex hb hw => ?_, fun hp hskip hhigh => ?_, fun hsize hw hsh hhigh => ?_⟩
    · by_cases ht : p = .excluded ∧ TakenOut L (s.withPriority tf p) tf i
      · exact .inr ht
      · exact .inl (((h.chunkLaw_given hi hr ht).mp (hlaw i hi)).1 hex hb hw)
    · have hshared := hskip.sharedAndNeeded htf
      obtain ⟨f, hf, -⟩ := hshared.2
      have hle := L.ordered.first_le_last tf htf
      have htaken := (h.chunkLaw_taken (hlt hf) ⟨hle, le_rfl⟩ ⟨hp, hskip.takenOut (hlt hf)⟩).mp
        (hlaw _ (hlt hf))
      exact htaken ((sharedAndNeeded_congr (hprio _)).mpr hshared)
        ((isHighest_congr (hprio _) _).mpr hhigh)
    · obtain ⟨f, hf, -⟩ := hsh.2
      have hp : p ≠ .excluded := by
        rintro rfl
        cases hw
      have hnot : tf ∉ L.overlapping tf.firstChunk := fun hc =>
        (Layout.mem_overlapping_range.mp hc).2.2 hsize
      have hsame := h.priority_of_notMem htf hnot
      have hgiven := (h.chunkLaw_given (hlt hf) ⟨le_rfl, L.ordered.first_le_last tf htf⟩
        fun hc => hp hc.1).mp (hlaw _ (hlt hf))
      have hseed := (hgiven.2 ((sharedAndNeeded_congr hsame).mpr hsh)).mpr
        ((isHighest_congr hsame _).mpr hhigh)
      exact highestPriority_ne_onlySeed hw hseed
  · intro hk i hi
    by_cases hr : tf.firstChunk ≤ i ∧ i ≤ tf.lastChunk
    · by_cases ht : p = .excluded ∧ TakenOut L (s.withPriority tf p) tf i
      · refine (h.chunkLaw_taken hi hr ht).mpr fun hsh hhigh => ?_
        have hself : (s.withPriority tf p).priority tf.index = .excluded := by
          rw [withPriority_self, ht.1]
        obtain ⟨hskip, rfl⟩ := skipsLast_of_takenOut htf ht.2 hself hr
          ((sharedAndNeeded_congr (hprio i)).mp hsh).2
        exact hk.skipped ht.1 hskip ((isHighest_congr (hprio _) _).mp hhigh)
      · refine (h.chunkLaw_given hi hr ht).mpr ⟨fun hex hb hw => ?_, fun hsh => ?_⟩
        · exact (hk.excluded i hi hr hex hb hw).resolve_right ht
        · rw [isHighest_congr (hprio i)]
          refine onlySeed_given htf hr (fun hsize hw hhigh => ?_)
            ((sharedAndNeeded_congr (hprio i)).mp hsh).2
          have hnot : tf ∉ L.overlapping i := fun hc =>
            (Layout.mem_overlapping_range.mp hc).2.2 hsize
          obtain ⟨-, rfl⟩ := empty_of_notMem htf hr hnot
          have hsame := h.priority_of_notMem htf hnot
          refine hk.empty hsize hw ((sharedAndNeeded_congr hsame).mp hsh) ?_
          rw [← isHighest_congr hsame, isHighest_congr (hprio _)]
          exact hhigh
    · exact (h.chunkLaw_outside htf hi hr).mpr (hs' i hi)

/-! ## Downloads and checks -/

/-- The chunk is to do when it is not downloaded, not excluded and not only seeded. -/
def TodoLaw (s : ChunkManager) (i : ℕ) : Prop :=
  s.todo i = true ↔ s.bitset i = false ∧ s.excludedChunks i = false ∧ s.onlySeedChunks i = false

/-- The step changes which chunks are downloaded, and nothing about priorities. -/
structure Marks (s t : ChunkManager) : Prop where
  priority : t.priority = s.priority
  excluded : t.excludedChunks = s.excludedChunks
  onlySeed : t.onlySeedChunks = s.onlySeedChunks
  load : t.duringLoad = s.duringLoad
  todo : ∀ i, TodoLaw s i → TodoLaw t i

theorem Marks.refl (s : ChunkManager) : Marks s s := ⟨rfl, rfl, rfl, rfl, fun _ h => h⟩

theorem Marks.trans {u : ChunkManager} (h : Marks s t) (h' : Marks t u) : Marks s u :=
  ⟨h'.priority.trans h.priority, h'.excluded.trans h.excluded, h'.onlySeed.trans h.onlySeed,
    h'.load.trans h.load, fun i hi => h'.todo i (h.todo i hi)⟩

theorem Marks.foldlM {α : Type*} {f : ChunkManager → α → Option ChunkManager}
    (hf : ∀ s a t, f s a = some t → Marks s t) :
    ∀ (l : List α) (s t : ChunkManager), l.foldlM f s = some t → Marks s t := by
  intro l
  induction l with
  | nil =>
    rintro s t ⟨⟩
    exact Marks.refl s
  | cons a l ih =>
    intro s t h
    rw [List.foldlM_cons, Option.bind_eq_bind, Option.bind_eq_some_iff] at h
    obtain ⟨u, hu, ht⟩ := h
    exact (hf s a u hu).trans (ih u t ht)

/-- The law is kept. -/
theorem Marks.wantedLaw (h : Marks s t) (hs : WantedLaw L s) : WantedLaw L t := by
  rw [wantedLaw_iff] at hs ⊢
  intro i hi
  have hprio : ∀ f ∈ L.overlapping i, t.priority f.index = s.priority f.index :=
    fun f _ => congrFun h.priority f.index
  refine ⟨h.todo i (hs i hi).todo_iff, fun hsh => ?_⟩
  rw [h.onlySeed, isHighest_congr hprio]
  exact (hs i hi).onlySeed_iff ((sharedAndNeeded_congr hprio).mp hsh)

theorem savePriorityInfo_marks (s : ChunkManager) : Marks s (s.savePriorityInfo L) := by
  unfold savePriorityInfo
  split
  · exact .refl s
  · exact ⟨rfl, rfl, rfl, rfl, fun _ h => h⟩

theorem saveIndexFile_marks (s : ChunkManager) : Marks s (s.saveIndexFile L) := by
  have h : Marks s { s with indexFile := (List.range L.numChunks).filter s.onDisk } :=
    ⟨rfl, rfl, rfl, rfl, fun _ h => h⟩
  exact h.trans (savePriorityInfo_marks _)

theorem downloaded_marks (s : ChunkManager) (i : ℕ) : Marks s { s with
    onDisk := Function.update s.onDisk i true
    bitset := Function.update s.bitset i true
    todo := Function.update s.todo i false } := by
  refine ⟨rfl, rfl, rfl, rfl, fun j hj => ?_⟩
  unfold TodoLaw at *
  by_cases hji : j = i
  · subst hji
    simp
  · simpa only [Function.update_of_ne hji] using hj

theorem chunkDownloaded_marks (s : ChunkManager) (i : ℕ) : Marks s (s.chunkDownloaded L i) := by
  unfold chunkDownloaded
  split
  · exact .refl s
  · split
    · exact (downloaded_marks s i).trans ⟨rfl, rfl, rfl, rfl, fun _ h => h⟩
    · exact .refl s

theorem resetChunk_marks (s : ChunkManager) (i : ℕ) : Marks s (s.resetChunk L i) := by
  unfold resetChunk
  split
  · exact .refl s
  · refine ⟨rfl, rfl, rfl, rfl, fun j hj => ?_⟩
    unfold TodoLaw at *
    by_cases hji : j = i
    · subst hji
      simp
    · simpa only [Function.update_of_ne hji] using hj

theorem dataChecked_marks (s : ChunkManager) (okChunks : ℕ → Bool) (from_ to_ : ℕ) :
    Marks s (s.dataChecked L okChunks from_ to_) := by
  unfold dataChecked
  dsimp only
  refine Marks.trans ?_ (saveIndexFile_marks _)
  refine ⟨rfl, rfl, rfl, rfl, fun i hi => ?_⟩
  unfold TodoLaw at *
  dsimp only
  by_cases hc : from_ ≤ i ∧ i < L.numChunks ∧ i ≤ to_
  · cases hok : okChunks i <;> cases hb : s.bitset i <;> simp [hc, hb, hi, and_comm]
  · simp only [hc, false_and, if_false]
    exact hi

/-! ## Files that were there before -/

variable {preExisting : ℕ → Bool}

theorem markDownloaded_marks (s : ChunkManager) (i : ℕ) (t : ChunkManager)
    (h : s.markDownloaded L i = some t) : Marks s t := by
  rw [markDownloaded] at h
  split at h
  · obtain rfl := Option.some.inj h
    exact downloaded_marks s i
  · cases h

theorem markEnd_marks (s : ChunkManager) (i : ℕ) (t : ChunkManager)
    (h : markEnd L preExisting s i = some t) : Marks s t := by
  rw [markEnd] at h
  split at h
  · exact markDownloaded_marks s i t h
  · obtain rfl := Option.some.inj h
    exact .refl s

theorem markExistingFile_marks (s : ChunkManager) (tf : TorrentFile) (t : ChunkManager)
    (h : markExistingFile L preExisting s tf = some t) : Marks s t := by
  rw [markExistingFile] at h
  split at h
  · simp only [Option.bind_eq_bind, Option.bind_eq_some_iff] at h
    obtain ⟨u, hu, v, hv, ht⟩ := h
    exact ((Marks.foldlM markDownloaded_marks _ s u hu).trans (markEnd_marks u _ v hv)).trans
      (markEnd_marks v _ t ht)
  · obtain rfl := Option.some.inj h
    exact .refl s

theorem markExistingFilesAsDownloaded_marks (h : s.markExistingFilesAsDownloaded L preExisting =
    some t) : Marks s t := by
  rw [markExistingFilesAsDownloaded, Option.bind_eq_bind, Option.bind_eq_some_iff] at h
  obtain ⟨u, hu, ht⟩ := h
  obtain rfl := Option.some.inj ht
  exact (Marks.foldlM markExistingFile_marks L.files s u hu).trans (saveIndexFile_marks u)

theorem markEnd_isSome (s : ChunkManager) (hi : i < L.numChunks) :
    (markEnd L preExisting s i).isSome := by
  rw [markEnd, markDownloaded, if_pos hi]
  split <;> rfl

theorem foldlM_isSome {α : Type*} {f : ChunkManager → α → Option ChunkManager} {l : List α}
    (hf : ∀ a ∈ l, ∀ s, (f s a).isSome) : ∀ s, (l.foldlM f s).isSome := by
  induction l with
  | nil => exact fun _ => rfl
  | cons a l ih =>
    intro s
    obtain ⟨t, ht⟩ := Option.isSome_iff_exists.mp (hf a (List.mem_cons_self ..) s)
    rw [List.foldlM_cons, ht]
    exact ih (fun b hb => hf b (List.mem_cons_of_mem a hb)) t

theorem foldlM_eq_none {α : Type*} {f : ChunkManager → α → Option ChunkManager} {l : List α} {a : α}
    (ha : a ∈ l) (hf : ∀ s, f s a = none) : ∀ s, l.foldlM f s = none := by
  induction l with
  | nil => cases ha
  | cons b l ih =>
    intro s
    rw [List.foldlM_cons]
    rcases List.mem_cons.mp ha with rfl | ha
    · rw [hf s]
      rfl
    · cases f s b with
      | none => rfl
      | some t => exact ih ha t

/-- The chunks of a file that starts in a chunk of the torrent are chunks of it. -/
theorem markExistingFile_isSome (htf : tf ∈ L.files) (hfirst : tf.firstChunk < L.numChunks)
    (s : ChunkManager) : (markExistingFile L preExisting s tf).isSome := by
  have hlast : tf.lastChunk < L.numChunks := by
    by_cases hsize : 0 < tf.size
    · exact L.lastChunk_lt htf hsize
    · have hex := L.exact_of_mem htf
      rw [hex.lastChunk, if_neg hsize, ← hex.firstChunk]
      exact hfirst
  rw [markExistingFile]
  split
  · have hmiddle : ((List.range' (tf.firstChunk + 1) (tf.lastChunk - (tf.firstChunk + 1))).foldlM
        (markDownloaded L) s).isSome := by
      refine foldlM_isSome (fun i hi t => ?_) s
      rw [List.mem_range'_1] at hi
      rw [markDownloaded, if_pos (by omega)]
      rfl
    obtain ⟨u, hu⟩ := Option.isSome_iff_exists.mp hmiddle
    have hend : (markEnd L preExisting u tf.firstChunk).isSome := markEnd_isSome u hfirst
    obtain ⟨v, hv⟩ := Option.isSome_iff_exists.mp hend
    dsimp only
    rw [hu, Option.bind_eq_bind, Option.bind_some, hv, Option.bind_some]
    exact markEnd_isSome v hlast
  · rfl

/-- An empty file behind the last chunk: no file has data in the chunk it is said to start in, and
that chunk is marked. -/
theorem markExistingFile_eq_none (htf : tf ∈ L.files) (hfirst : L.numChunks ≤ tf.firstChunk)
    (hpre : preExisting tf.index = true) (s : ChunkManager) :
    markExistingFile L preExisting s tf = none := by
  have hempty : tf.lastChunk = tf.firstChunk := by
    have hex := L.exact_of_mem htf
    rw [hex.lastChunk, if_neg, ← hex.firstChunk]
    intro hsize
    have := L.lastChunk_lt htf hsize
    have := hex.first_le_last
    omega
  have hnone : L.overlapping tf.firstChunk = [] := by
    refine List.eq_nil_iff_forall_not_mem.mpr fun f hf => ?_
    obtain ⟨hmem, hrange, hsize⟩ := Layout.mem_overlapping_range.mp hf
    have := L.lastChunk_lt hmem (Nat.pos_of_ne_zero hsize)
    omega
  have hend : markEnd L preExisting s tf.firstChunk = none := by
    rw [markEnd, allFilesExistOfChunk, hnone, List.all_nil, if_pos rfl, markDownloaded,
      if_neg (not_lt.mpr hfirst)]
  rw [markExistingFile, if_pos hpre, hempty, Nat.sub_eq_zero_of_le (Nat.le_succ _)]
  show ((markEnd L preExisting s tf.firstChunk).bind fun s => markEnd L preExisting s tf.firstChunk) = none
  rw [hend]
  rfl

/-- **Files that were there are marked**, exactly when each of them starts in a chunk. -/
theorem markExistingFilesAsDownloaded_isSome_iff (s : ChunkManager) :
    (s.markExistingFilesAsDownloaded L preExisting).isSome ↔
      ∀ tf ∈ L.files, preExisting tf.index = true → tf.firstChunk < L.numChunks := by
  rw [markExistingFilesAsDownloaded]
  constructor
  · intro h tf htf hpre
    by_contra hfirst
    rw [foldlM_eq_none htf (markExistingFile_eq_none htf (not_lt.mp hfirst) hpre) s] at h
    cases h
  · intro h
    have hsome : (L.files.foldlM (markExistingFile L preExisting) s).isSome := by
      refine foldlM_isSome (fun tf htf s => ?_) s
      by_cases hpre : preExisting tf.index = true
      · exact markExistingFile_isSome htf (h tf htf hpre) s
      · rw [markExistingFile, if_neg hpre]
        rfl
    obtain ⟨t, ht⟩ := Option.isSome_iff_exists.mp hsome
    rw [ht]
    rfl

/-! ## Runs -/

/-- What can happen to the manager of a torrent. -/
inductive WantedEvent (L : Layout) where
  | priority (call : PriorityCall L)
  | chunkDownloaded (i : ℕ)
  | resetChunk (i : ℕ)
  | dataChecked (okChunks : ℕ → Bool) (from_ to_ : ℕ)
  | markExistingFilesAsDownloaded (preExisting : ℕ → Bool)

/-- What it leaves; nothing, when `d->chunks` is read behind its end. -/
def wantedCall (L : Layout) (cfg : PreviewConfig) (s : ChunkManager) :
    WantedEvent L → Option ChunkManager
  | .priority call => some (s.applyCall L cfg call)
  | .chunkDownloaded i => some (s.chunkDownloaded L i)
  | .resetChunk i => some (s.resetChunk L i)
  | .dataChecked okChunks from_ to_ => some (s.dataChecked L okChunks from_ to_)
  | .markExistingFilesAsDownloaded preExisting => s.markExistingFilesAsDownloaded L preExisting

/-- It happens.  When it fails there is nothing left to look at. -/
def wantedStep (L : Layout) (cfg : PreviewConfig) (s : ChunkManager) (e : WantedEvent L) :
    ChunkManager :=
  (wantedCall L cfg s e).getD s

/-- The law holds after the event, which did not fail. -/
def WantedAfter (L : Layout) (cfg : PreviewConfig) (s : ChunkManager) (e : WantedEvent L) : Prop :=
  ∃ t, wantedCall L cfg s e = some t ∧ WantedLaw L t

/-- A call keeps the law if the change that it makes does; of the files that were there, each starts
in a chunk of the torrent. -/
def AllowsWanted (L : Layout) (s : ChunkManager) : WantedEvent L → Prop
  | .priority call => ∀ p, call.newPriority s = some p → KeepsWanted L s call.file p
  | .markExistingFilesAsDownloaded preExisting =>
    ∀ tf ∈ L.files, preExisting tf.index = true → tf.firstChunk < L.numChunks
  | _ => True

/-- The law, outside of loading. -/
def WantedInv (L : Layout) (s : ChunkManager) : Prop := s.duringLoad = false ∧ WantedLaw L s

theorem wantedAfter_iff (hs : WantedInv L s) (e : WantedEvent L) :
    WantedAfter L cfg s e ↔ AllowsWanted L s e := by
  have hmarks : ∀ t, Marks s t → ((∃ u, some t = some u ∧ WantedLaw L u) ↔ True) := fun t h =>
    iff_of_true ⟨t, rfl, h.wantedLaw hs.2⟩ trivial
  cases e with
  | priority call =>
    have hafter : WantedAfter L cfg s (.priority call) ↔ WantedLaw L (s.applyCall L cfg call) := by
      constructor
      · rintro ⟨t, ⟨⟩, ht⟩
        exact ht
      · exact fun h => ⟨_, rfl, h⟩
    rw [hafter, AllowsWanted]
    rcases applyCall_changes cfg hs.1 call with ⟨hnone, hsame⟩ | ⟨p, hsome, hc⟩
    · rw [hsame, hnone]
      exact iff_of_true hs.2 fun p hp => by cases hp
    · refine (hc.wantedLaw_iff call.file_mem hs.2).trans ?_
      rw [hsome]
      exact ⟨fun hk q hq => Option.some.inj hq ▸ hk, fun hk => hk p rfl⟩
  | chunkDownloaded i => exact hmarks _ (chunkDownloaded_marks s i)
  | resetChunk i => exact hmarks _ (resetChunk_marks s i)
  | dataChecked okChunks from_ to_ => exact hmarks _ (dataChecked_marks s okChunks from_ to_)
  | markExistingFilesAsDownloaded preExisting =>
    refine Iff.trans ⟨?_, fun hsome => ?_⟩ (markExistingFilesAsDownloaded_isSome_iff s)
    · rintro ⟨t, ht, -⟩
      exact Option.isSome_iff_exists.mpr ⟨t, ht⟩
    · obtain ⟨t, ht⟩ := Option.isSome_iff_exists.mp hsome
      exact ⟨t, ht, (markExistingFilesAsDownloaded_marks ht).wantedLaw hs.2⟩

/-- Files that were there change no priority and no set of chunks that are not downloaded. -/
theorem wantedStep_marks (s : ChunkManager) (preExisting : ℕ → Bool) :
    Marks s (wantedStep L cfg s (.markExistingFilesAsDownloaded preExisting)) := by
  rw [wantedStep, wantedCall]
  cases h : s.markExistingFilesAsDownloaded L preExisting with
  | none => exact .refl s
  | some t => exact markExistingFilesAsDownloaded_marks h

theorem wantedStep_load (h : s.duringLoad = false) (e : WantedEvent L) :
    (wantedStep L cfg s e).duringLoad = false := by
  cases e with
  | priority call =>
    rcases applyCall_changes cfg h call with ⟨-, hsame⟩ | ⟨p, -, hc⟩
    · exact (congrArg duringLoad hsame).trans h
    · exact hc.load.trans h
  | chunkDownloaded i => exact (chunkDownloaded_marks s i).load.trans h
  | resetChunk i => exact (resetChunk_marks s i).load.trans h
  | dataChecked okChunks from_ to_ => exact (dataChecked_marks s okChunks from_ to_).load.trans h
  | markExistingFilesAsDownloaded preExisting => exact (wantedStep_marks s preExisting).load.trans h

theorem WantedInv.step (hs : WantedInv L s) (e : WantedEvent L) (hok : AllowsWanted L s e) :
    WantedInv L (wantedStep L cfg s e) := by
  refine ⟨wantedStep_load hs.1 e, ?_⟩
  have hafter : WantedAfter L cfg s e := (wantedAfter_iff hs e).mpr hok
  obtain ⟨t, ht, hlaw⟩ := hafter
  rw [wantedStep, ht]
  exact hlaw

/-- A new manager wants all chunks. -/
theorem wantedInv_new (L : Layout) (cfg : PreviewConfig) (indexFile : List ℕ)
    (fileInfo filePriority : Option (List ℕ)) :
    WantedInv L (new L cfg indexFile fileInfo filePriority) := by
  obtain ⟨-, hprio, -, -, -, hload⟩ := new_same L cfg indexFile fileInfo filePriority
  refine ⟨hload, wantedLaw_iff.mpr fun i hi => ?_⟩
  have hentry := new_entry L cfg indexFile fileInfo filePriority i
  simp only [entry, ChunkEntry.mk.injEq] at hentry
  obtain ⟨hbitset, hexcl, hseed, htodo⟩ := hentry
  refine ⟨by simp [hbitset, hexcl, hseed, htodo, hi], fun _ => ?_⟩
  rw [hseed]
  refine iff_of_false Bool.false_ne_true ?_
  rintro ⟨⟨f, -, hf⟩, -⟩
  rw [hprio] at hf
  cases hf

/-- **The wanted chunks along a run.**  From a new manager, whatever is downloaded, reset, checked
and found, the law holds at first and after every step exactly when every change of a priority is one
that `KeepsWanted` allows and every file that was found starts in a chunk of the torrent. -/
theorem allSteps_wanted_iff (L : Layout) (cfg : PreviewConfig) (indexFile : List ℕ)
    (fileInfo filePriority : Option (List ℕ)) (events : List (WantedEvent L)) :
    WantedLaw L (new L cfg indexFile fileInfo filePriority) ∧
        AllSteps (wantedStep L cfg) (WantedAfter L cfg) (new L cfg indexFile fileInfo filePriority)
          events ↔
      AllSteps (wantedStep L cfg) (AllowsWanted L) (new L cfg indexFile fileInfo filePriority)
        events := by
  have hnew := wantedInv_new L cfg indexFile fileInfo filePriority
  refine (and_iff_right hnew.2).trans ?_
  exact allSteps_iff_of_invariant (fun s e h hok => WantedInv.step h e hok)
    (fun s e h => wantedAfter_iff h e) events _ hnew

/-- **A chunk that is only seeded is excluded.**  In `twoChunkFile` the last file is only to be
seeded; when the file in the middle is excluded, chunk 1 is no longer in the set of the chunks
that are only seeded, although the last file is in it. -/
theorem wantedLaw_fails :
    ¬ AllSteps (wantedStep twoChunkFile.toLayout noPreview)
      (WantedAfter twoChunkFile.toLayout noPreview)
      (new twoChunkFile.toLayout noPreview [] none none)
      [.priority (.setPriority ⟨2, by decide⟩ .onlySeed),
        .priority (.setDoNotDownload ⟨1, by decide⟩ true)] := by
  rintro ⟨-, ⟨t, ⟨⟩, h⟩, -⟩
  have hseed := (h.onlySeed_iff 1 (by decide) ⟨by decide, by decide⟩).mpr ⟨by decide, by decide⟩
  revert hseed
  decide

end ChunkManager
end KTorrent
