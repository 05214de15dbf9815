import KTorrent.Diskio.WantedLaw
import KTorrent.Lib.MarkedSum
import KTorrent.Torrent.Walkers

/-!
# Bytes that are left and bytes that are excluded

The model of `bytesLeft`, `bytesLeftToDownload` and `bytesExcluded` of
`diskio/chunkmanager.cpp`, with their 32-bit counts and 64-bit products, and of the total that
`TorrentControl::updateStats` computes from them.

* `Stats.chunkBytes` — what the three functions make of a count; `chunkBytes_eq` — when it is the
  sum of the sizes.
* `Totals` — the three numbers are sums; `totals_iff` — the layouts for which they always are.
* `ApartLaw` — no chunk is excluded and only seeded, and the total does not wrap.
* `KeepsApart` — the changes of a priority that make no excluded chunk an only seeded one.
* `accounts_iff` — along a run the law holds exactly when all changes are of this kind.
-/

namespace KTorrent

open MarkedSum Runs

/-- The chunks are as long as the torrent. -/
theorem Layout.sum_sizeOfChunk (L : Layout) :
    ∑ i ∈ Finset.range L.numChunks, L.sizeOfChunk i = L.total := by
  rcases hn : L.numChunks with _ | k
  · have := L.total_le
    rw [hn, Nat.zero_mul] at this
    exact (Nat.le_zero.mp this).symm
  · have hfull : ∀ i ∈ Finset.range k, L.sizeOfChunk i = L.chunkSize := fun i hi => by
      have := Finset.mem_range.mp hi
      rw [Layout.sizeOfChunk, if_neg (by omega)]
    have hlast := (L.chunk_bounds (c := k) (by omega)).2
    have htotal := L.total_le
    rw [hn] at htotal
    rw [Layout.chunkStop, min_eq_right htotal] at hlast
    rw [Finset.sum_range_succ, Finset.sum_congr rfl hfull, Finset.sum_const, Finset.card_range,
      smul_eq_mul, hlast]

namespace ChunkManager

namespace Stats

variable (L : Layout)

/-- `BitSet::get` of a set with a bit for every chunk. -/
def get (b : ℕ → Bool) (i : ℕ) : Bool := decide (i < L.numChunks) && b i

/-- `BitSet::numOnBits`. -/
def numOnBits (b : ℕ → Bool) : ℕ := (List.range L.numChunks).countP b

/-- The bytes of `num` chunks.  One of them may be the last, whose `Chunk` has its own size; the
constructor makes a `Chunk` for every number. -/
def chunkBytes (num : ℕ) (withLast : Bool) : ℕ :=
  if withLast then u64 (u64 (sub32 num 1 * L.chunkSize) + L.getSize (sub32 L.numChunks 1))
  else u64 (num * L.chunkSize)

/-- `ChunkManager::bytesLeft`. -/
def bytesLeft (s : ChunkManager) : ℕ :=
  let numLeft := sub32 L.numChunks (numOnBits L s.bitset)
  let last := sub32 L.numChunks 1
  chunkBytes L numLeft (decide (last < L.numChunks) && !get L s.bitset last)

/-- `ChunkManager::bytesLeftToDownload`. -/
def bytesLeftToDownload (s : ChunkManager) : ℕ :=
  let last := sub32 L.numChunks 1
  chunkBytes L (numOnBits L s.todo) (decide (last < L.numChunks) && get L s.todo last)

/-- `ChunkManager::bytesExcluded`. -/
def bytesExcluded (s : ChunkManager) : ℕ :=
  let last := sub32 L.numChunks 1
  u64 (chunkBytes L (numOnBits L s.excludedChunks) (get L s.excludedChunks last) +
    chunkBytes L (numOnBits L s.onlySeedChunks) (get L s.onlySeedChunks last))

/-- `total_bytes_to_download`, as `updateStats` computes it. -/
def totalBytesToDownload (s : ChunkManager) : ℕ := sub64 L.total (bytesExcluded L s)

end Stats

/-! ## Sums of sizes -/

section Sums

variable {L : Layout}

theorem markedSum_le_total (L : Layout) (b : ℕ → Bool) :
    markedSum L.numChunks L.sizeOfChunk b ≤ L.total :=
  (markedSum_le _ _ b).trans_eq L.sum_sizeOfChunk

/-- The bytes of the chunks in a set, from their number. -/
theorem markedSum_sizeOfChunk (hpos : 0 < L.numChunks) (b : ℕ → Bool) :
    markedSum L.numChunks L.sizeOfChunk b =
      if b (L.numChunks - 1) then
        (Stats.numOnBits L b - 1) * L.chunkSize + L.lastChunkSize
      else Stats.numOnBits L b * L.chunkSize := by
  obtain ⟨n, hn⟩ : ∃ n, L.numChunks = n + 1 := ⟨L.numChunks - 1, by omega⟩
  have hlast : L.sizeOfChunk n = L.lastChunkSize := by rw [Layout.sizeOfChunk, if_pos (by omega)]
  have hfull : ∀ i < n, L.sizeOfChunk i = L.chunkSize := fun i hi => by
    rw [Layout.sizeOfChunk, if_neg (by omega)]
  rw [Stats.numOnBits, hn, markedSum_last hfull, hlast, Nat.add_sub_cancel]

theorem numOnBits_le (L : Layout) (b : ℕ → Bool) : Stats.numOnBits L b ≤ L.numChunks := by
  have hle := List.countP_le_length (p := b) (l := List.range L.numChunks)
  rwa [List.length_range] at hle

theorem numOnBits_not (L : Layout) (b : ℕ → Bool) :
    Stats.numOnBits L (fun i => !b i) = L.numChunks - Stats.numOnBits L b := by
  have hlen := List.length_eq_countP_add_countP b (l := List.range L.numChunks)
  have hnot : (List.range L.numChunks).countP (fun i => !b i) =
      (List.range L.numChunks).countP fun i => ¬ b i = true :=
    List.countP_congr fun i _ => by simp
  rw [List.length_range] at hlen
  rw [Stats.numOnBits, Stats.numOnBits, hnot]
  omega

theorem last_eq (hpos : 0 < L.numChunks) : sub32 L.numChunks 1 = L.numChunks - 1 :=
  sub32_of_le hpos L.numChunks_lt

theorem getSize_last (hpos : 0 < L.numChunks) :
    L.getSize (sub32 L.numChunks 1) = u32 L.lastChunkSize := by
  rw [last_eq hpos, Layout.getSize, Layout.sizeOfChunk, if_pos rfl]

/-- **What the program computes from a count** is the sum of the sizes, with the last one as a
`Uint32` has it. -/
theorem chunkBytes_add (hpos : 0 < L.numChunks) (b : ℕ → Bool) :
    Stats.chunkBytes L (Stats.numOnBits L b) (Stats.get L b (L.numChunks - 1)) +
        (if b (L.numChunks - 1) then L.lastChunkSize - u32 L.lastChunkSize else 0) =
      markedSum L.numChunks L.sizeOfChunk b := by
  have hsum := markedSum_sizeOfChunk hpos b
  have hle := (hsum ▸ markedSum_le_total L b).trans_lt L.total_lt
  have hget : Stats.get L b (L.numChunks - 1) = b (L.numChunks - 1) := by
    rw [Stats.get, decide_eq_true (by omega), Bool.true_and]
  rw [hsum, hget, Stats.chunkBytes, getSize_last hpos]
  cases hb : b (L.numChunks - 1) with
  | false =>
    rw [hb] at hle
    simp only [Bool.false_eq_true, if_false, Nat.add_zero] at hle ⊢
    exact u64_of_lt hle
  | true =>
    have hone : 1 ≤ Stats.numOnBits L b :=
      List.countP_pos_iff.mpr ⟨L.numChunks - 1, List.mem_range.mpr (by omega), hb⟩
    have hnum := (numOnBits_le L b).trans_lt L.numChunks_lt
    have hcut : u32 L.lastChunkSize ≤ L.lastChunkSize := Nat.mod_le _ _
    rw [hb] at hle
    simp only [if_true] at hle ⊢
    have hfull : (Stats.numOnBits L b - 1) * L.chunkSize < 2 ^ 64 := by omega
    rw [sub32_of_le hone hnum, u64_of_lt hfull, u64_of_lt (by omega)]
    omega

theorem chunkBytes_eq (hpos : 0 < L.numChunks) (hlast : L.lastChunkSize < 2 ^ 32) (b : ℕ → Bool) :
    Stats.chunkBytes L (Stats.numOnBits L b) (Stats.get L b (L.numChunks - 1)) =
      markedSum L.numChunks L.sizeOfChunk b := by
  rw [← chunkBytes_add hpos b, u32_of_lt hlast, Nat.sub_self]
  split <;> rfl

/-- The three numbers are the sums of the sizes of the chunks that are missing, that are to do,
and that are excluded or only seeded. -/
structure Totals (L : Layout) (s : ChunkManager) : Prop where
  bytesLeft : Stats.bytesLeft L s = markedSum L.numChunks L.sizeOfChunk fun i => !s.bitset i
  bytesLeftToDownload :
    Stats.bytesLeftToDownload L s = markedSum L.numChunks L.sizeOfChunk s.todo
  bytesExcluded : Stats.bytesExcluded L s =
    markedSum L.numChunks L.sizeOfChunk s.excludedChunks +
      markedSum L.numChunks L.sizeOfChunk s.onlySeedChunks

/-- The missing chunks, as the program counts them. -/
theorem bytesLeft_eq (hpos : 0 < L.numChunks) (s : ChunkManager) :
    Stats.bytesLeft L s = Stats.chunkBytes L (Stats.numOnBits L fun i => !s.bitset i)
      (Stats.get L (fun i => !s.bitset i) (L.numChunks - 1)) := by
  have hin : L.numChunks - 1 < L.numChunks := by omega
  rw [Stats.bytesLeft, last_eq hpos, numOnBits_not,
    sub32_of_le (numOnBits_le L _) L.numChunks_lt, Stats.get, Stats.get]
  simp only [hin, decide_true, Bool.true_and]

theorem bytesLeftToDownload_eq (hpos : 0 < L.numChunks) (s : ChunkManager) :
    Stats.bytesLeftToDownload L s = Stats.chunkBytes L (Stats.numOnBits L s.todo)
      (Stats.get L s.todo (L.numChunks - 1)) := by
  have hin : L.numChunks - 1 < L.numChunks := by omega
  rw [Stats.bytesLeftToDownload, last_eq hpos, Stats.get]
  simp only [hin, decide_true, Bool.true_and]

/-- **The layouts for which the totals are always right.** -/
theorem totals_iff (hpos : 0 < L.numChunks) :
    (∀ s, Totals L s) ↔ L.lastChunkSize < 2 ^ 32 ∧ 2 * L.total < 2 ^ 64 := by
  constructor
  · intro h
    -- nothing is downloaded, and everything is excluded and only seeded
    have hall := h
      { chunkPriority := fun _ => .normal, onDisk := fun _ => false, bitset := fun _ => false
        excludedChunks := fun _ => true, onlySeedChunks := fun _ => true, todo := fun _ => false
        duringLoad := false, priority := fun _ => .normal, oldPriority := fun _ => .normal
        indexFile := [], fileInfoFile := none, filePriorityFile := none }
    have hlast := hall.bytesLeft
    have hexcluded := hall.bytesExcluded
    have hsum : markedSum L.numChunks L.sizeOfChunk (fun _ => true) = L.total :=
      L.sum_sizeOfChunk
    constructor
    · have hadd := chunkBytes_add hpos fun _ => true
      rw [bytesLeft_eq hpos] at hlast
      simp only [Bool.not_false, if_true] at hlast hadd
      have hcut : u32 L.lastChunkSize < 2 ^ 32 := u32_lt _
      omega
    · simp only [hsum] at hexcluded
      have hlt := u64_lt (Stats.chunkBytes L (Stats.numOnBits L fun _ => true)
        (Stats.get L (fun _ => true) (sub32 L.numChunks 1)) +
          Stats.chunkBytes L (Stats.numOnBits L fun _ => true)
            (Stats.get L (fun _ => true) (sub32 L.numChunks 1)))
      rw [Stats.bytesExcluded] at hexcluded
      simp only at hexcluded
      omega
  · rintro ⟨hlast, htotal⟩ s
    have hexcluded := markedSum_le_total L s.excludedChunks
    have hseed := markedSum_le_total L s.onlySeedChunks
    refine ⟨?_, ?_, ?_⟩
    · rw [bytesLeft_eq hpos, chunkBytes_eq hpos hlast]
    · rw [bytesLeftToDownload_eq hpos, chunkBytes_eq hpos hlast]
    · rw [Stats.bytesExcluded]
      simp only [last_eq hpos, chunkBytes_eq hpos hlast]
      exact u64_of_lt (by omega)

end Sums

/-! ## Excluded and only seeded -/

/-- No chunk is excluded and only seeded. -/
def Apart (L : Layout) (s : ChunkManager) : Prop :=
  ∀ i < L.numChunks, s.excludedChunks i = true → s.onlySeedChunks i = false

/-- The two sets are disjoint, and the total that is to be downloaded does not underflow. -/
structure ApartLaw (L : Layout) (s : ChunkManager) : Prop where
  disjoint : ∀ i < L.numChunks, s.excludedChunks i = true → s.onlySeedChunks i = false
  total : Stats.totalBytesToDownload L s + Stats.bytesExcluded L s = L.total

/-- The changes of the priority of `tf` to `p` that keep the sets apart: a chunk of the file that
is excluded does not become one that is only seeded, unless it is included before, or excluded
again. -/
def KeepsApart (L : Layout) (s : ChunkManager) (tf : TorrentFile) (p : Priority) : Prop :=
  ∀ i < L.numChunks, tf.firstChunk ≤ i ∧ i ≤ tf.lastChunk → s.excludedChunks i = true →
    highestPriority L (s.withPriority tf p) i p = .onlySeed →
    (p ≠ .excluded ∧ (s.priority tf.index = .excluded ∨ s.priority tf.index = .onlySeed)) ∨
      (p = .excluded ∧ TakenOut L (s.withPriority tf p) tf i)

/-- A call keeps them apart if the change that it makes does. -/
def AllowsApart (L : Layout) (s : ChunkManager) : WantedEvent L → Prop
  | .priority call => ∀ p, call.newPriority s = some p → KeepsApart L s call.file p
  | _ => True

section Apart

variable {L : Layout} {cfg : PreviewConfig} {s t : ChunkManager} {tf : TorrentFile} {p : Priority}

/-- **A change keeps the sets apart exactly when it is one that `KeepsApart` allows.** -/
theorem Changes.apart_iff (h : Changes L s t tf p) (hs : Apart L s) :
    Apart L t ↔ KeepsApart L s tf p := by
  refine forall₂_congr fun i hi => ?_
  have hentry := h.entry i hi
  by_cases hr : tf.firstChunk ≤ i ∧ i ≤ tf.lastChunk
  · rw [if_pos hr] at hentry
    by_cases ht : p = .excluded ∧ TakenOut L (s.withPriority tf p) tf i
    · rw [if_pos ht] at hentry
      simp only [ChunkManager.entry, ChunkEntry.gone, ChunkEntry.mk.injEq] at hentry
      exact iff_of_true (fun _ => hentry.2.2.1) fun _ _ _ => .inr ht
    · rw [if_neg ht] at hentry
      simp only [ChunkManager.entry, ChunkEntry.given, ChunkEntry.mk.injEq] at hentry
      rw [hentry.2.1, hentry.2.2.1]
      simp only [hr, ht, or_false]
      cases s.excludedChunks i with
      | false => simp
      | true => grind
  · rw [if_neg hr] at hentry
    simp only [ChunkManager.entry, ChunkEntry.mk.injEq] at hentry
    rw [hentry.2.1, hentry.2.2.1]
    exact iff_of_true (hs i hi) fun hin => absurd hin hr

theorem Marks.apart_iff (h : Marks s t) : Apart L t ↔ Apart L s := by
  rw [Apart, Apart, h.excluded, h.onlySeed]

/-- Outside of loading. -/
def ApartInv (L : Layout) (s : ChunkManager) : Prop := s.duringLoad = false ∧ Apart L s

theorem apart_step_iff (hs : ApartInv L s) (e : WantedEvent L) :
    Apart L (wantedStep L cfg s e) ↔ AllowsApart L s e := by
  have hmarks : ∀ t, Marks s t → (Apart L t ↔ True) := fun t h =>
    iff_of_true (h.apart_iff.mpr hs.2) trivial
  cases e with
  | priority call =>
    show Apart L (s.applyCall L cfg call) ↔ _
    rw [AllowsApart]
    rcases applyCall_changes cfg hs.1 call with ⟨hnone, hsame⟩ | ⟨p, hsome, hc⟩
    · rw [hsame, hnone]
      exact iff_of_true hs.2 fun p hp => by cases hp
    · refine (hc.apart_iff hs.2).trans ?_
      rw [hsome]
      exact ⟨fun hk q hq => Option.some.inj hq ▸ hk, fun hk => hk p rfl⟩
  | chunkDownloaded i => exact hmarks _ (chunkDownloaded_marks s i)
  | resetChunk i => exact hmarks _ (resetChunk_marks s i)
  | dataChecked okChunks from_ to_ => exact hmarks _ (dataChecked_marks s okChunks from_ to_)
  | markExistingFilesAsDownloaded preExisting =>
    exact hmarks _ (wantedStep_marks s preExisting)

theorem apartInv_new (L : Layout) (cfg : PreviewConfig) (indexFile : List ℕ)
    (fileInfo filePriority : Option (List ℕ)) :
    ApartInv L (new L cfg indexFile fileInfo filePriority) := by
  obtain ⟨-, -, -, -, -, hload⟩ := new_same L cfg indexFile fileInfo filePriority
  refine ⟨hload, fun i _ hexcluded => ?_⟩
  have hentry := new_entry L cfg indexFile fileInfo filePriority i
  simp only [entry, ChunkEntry.mk.injEq] at hentry
  exact hentry.2.2.1

/-- With sets that are apart there is nothing that could underflow. -/
theorem Apart.law (hs : Apart L s) (htotals : Totals L s) : ApartLaw L s := by
  have hle := markedSum_add_le (w := L.sizeOfChunk) hs
  rw [L.sum_sizeOfChunk, ← htotals.bytesExcluded] at hle
  refine ⟨hs, ?_⟩
  rw [Stats.totalBytesToDownload, sub64_of_le hle L.total_lt, Nat.sub_add_cancel hle]

/-- **The accounts along a run.**  The totals are right for all sets, and from a new manager the
excluded and the only seeded chunks are disjoint in every state and the total does not underflow,
exactly when the last chunk fits a `Uint32`, twice the torrent fits a `Uint64`, and every change
of a priority is one that `KeepsApart` allows. -/
theorem accounts_iff (hpos : 0 < L.numChunks) (cfg : PreviewConfig) (indexFile : List ℕ)
    (fileInfo filePriority : Option (List ℕ)) (events : List (WantedEvent L)) :
    (∀ s, Totals L s) ∧
        AllStates (wantedStep L cfg) (ApartLaw L) (new L cfg indexFile fileInfo filePriority)
          events ↔
      (L.lastChunkSize < 2 ^ 32 ∧ 2 * L.total < 2 ^ 64) ∧
        AllSteps (wantedStep L cfg) (AllowsApart L) (new L cfg indexFile fileInfo filePriority)
          events := by
  rw [totals_iff hpos]
  refine and_congr_right fun hlayout => ?_
  have htotals := (totals_iff hpos).mpr hlayout
  exact allStates_iff_allSteps (fun s h => h.2.law (htotals s))
    (fun _ e h hok => ⟨wantedStep_load h.1 e, (apart_step_iff h e).mpr hok⟩)
    (fun _ e h hbad hlaw => hbad ((apart_step_iff h e).mp hlaw.disjoint)) events _
    (apartInv_new L cfg indexFile fileInfo filePriority)

end Apart

/-- The last two files of `twoChunkFile` are excluded, and chunk 1 with them; then the last one is
only to be seeded, for which the chunk is included first. -/
theorem accounts_lastFile :
    (∀ s, Totals twoChunkFile.toLayout s) ∧
      AllStates (wantedStep twoChunkFile.toLayout noPreview) (ApartLaw twoChunkFile.toLayout)
        (new twoChunkFile.toLayout noPreview [] none none)
        [.priority (.setDoNotDownload ⟨2, by decide⟩ true),
          .priority (.setDoNotDownload ⟨1, by decide⟩ true),
          .priority (.setPriority ⟨2, by decide⟩ .onlySeed)] := by
  refine (accounts_iff (by decide) noPreview [] none none _).mpr ⟨by decide, ?_, ?_, ?_, trivial⟩
  · intro p _ i hi _ hexcluded
    have hnone : ∀ i < 2, (new twoChunkFile.toLayout noPreview [] none none).excludedChunks i =
        false := by decide
    exact absurd hexcluded (by simp [hnone i hi])
  · intro p _ i hi _ hexcluded
    have hnone : ∀ i < 2, (wantedStep twoChunkFile.toLayout noPreview
        (new twoChunkFile.toLayout noPreview [] none none)
        (.priority (.setDoNotDownload ⟨2, by decide⟩ true))).excludedChunks i = false := by decide
    exact absurd hexcluded (by simp [hnone i hi])
  · intro p hp i _ _ _ _
    obtain rfl : Priority.onlySeed = p := Option.some.inj hp
    exact .inl ⟨by decide, .inl (by decide)⟩

/-- **More is excluded than there is.**  In `twoChunkFile` the file in the middle is excluded, and
chunk 1 with it, although the last file needs it; then the two others are only to be seeded.
Chunk 1 is in both sets, and the 8 bytes of the torrent less the 12 that are excluded wrap. -/
theorem excluded_twice :
    ¬ AllStates (wantedStep twoChunkFile.toLayout noPreview) (ApartLaw twoChunkFile.toLayout)
      (new twoChunkFile.toLayout noPreview [] none none)
      [.priority (.setDoNotDownload ⟨1, by decide⟩ true),
        .priority (.setPriority ⟨2, by decide⟩ .onlySeed),
        .priority (.setPriority ⟨0, by decide⟩ .onlySeed)] := by
  intro h
  have htotal := h.last.total
  revert htotal
  decide +kernel

end ChunkManager
end KTorrent
