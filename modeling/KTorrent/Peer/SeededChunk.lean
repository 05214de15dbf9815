import KTorrent.Lib.Ring
import KTorrent.Peer.SuperSeeder

/-!
# The chunk a super seeder sends

Which chunk `sendChunk` allows a peer to have.  The loop leaves out the chunk
behind its random start, and its alternative is the last chunk it may take, not
the rarest one.

* `allowedChunks` — the calls of `chunkAllowed`; `sendChunk_eq` — the tables record them.
* `searchChunk_fresh`, `searchChunk_last` — what the loop finds.
* `SendsWell` — a chunk that no downloader has or was sent, or else one of the rarest.
* `sendsWell_iff` — when that is so.
-/

namespace KTorrent

namespace SuperSeeder

open Ring

variable {PeerPtr : Type} [DecidableEq PeerPtr]

/-- The chunks for which `sendChunk` calls `chunkAllowed`. -/
def allowedChunks (s : SuperSeeder PeerPtr) (bs : BitSet) (peer : PeerPtr) : List ℕ :=
  if peer ∈ s.activePeers then []
  else if bs.allOn then []
  else
    let numChunks := s.chunkCounter.getNumChunks
    let chunk := s.searchChunk bs numChunks (searched numChunks (bounded (s.random 0) numChunks))
    if chunk < numChunks then [chunk] else []

/-- A chunk is written down for a peer. -/
def assign (s : SuperSeeder PeerPtr) (peer : PeerPtr) (chunk : ℕ) : SuperSeeder PeerPtr :=
  { s with
    activeChunks := (chunk, peer) :: s.activeChunks
    activePeers := s.activePeers.insert peer chunk }

/-- `sendChunk` writes down the chunks that it allows. -/
theorem sendChunk_eq (s : SuperSeeder PeerPtr) (bs : BitSet) (peer : PeerPtr) :
    s.sendChunk bs peer =
      (s.allowedChunks bs peer).foldl (fun s chunk => s.assign peer chunk)
        (if peer ∈ s.activePeers ∨ bs.allOn = true then s
        else { s with random := fun k => s.random (k + 1) }) := by
  unfold sendChunk allowedChunks
  by_cases hpeer : peer ∈ s.activePeers
  · simp [hpeer]
  by_cases hall : bs.allOn = true
  · simp [hall]
  have hno : ¬ (peer ∈ s.activePeers ∨ bs.allOn = true) := not_or.mpr ⟨hpeer, hall⟩
  rw [if_neg hpeer, if_neg hpeer, if_neg hall, if_neg hall, if_neg hno]
  dsimp only
  split
  · rfl
  · rfl

/-! ## The way around -/

/-- How far a chunk is in front of `start`. -/
def before (numChunks start chunk : ℕ) : ℕ := (start + numChunks - chunk) % numChunks

/-- The chunk that the loop leaves out: the one behind `start`. -/
def skipped (numChunks start : ℕ) : ℕ := (start + 1) % numChunks

theorem bounded_lt (random : UInt32) {n : ℕ} (hn : 0 < n) : bounded random n < n := by
  have hr := random.toNat_lt
  rw [bounded, Nat.div_lt_iff_lt_mul (by decide), Nat.mul_comm]
  exact Nat.mul_lt_mul_of_pos_left hr hn

section Around

variable {n start : ℕ} (hstart : start < n)

include hstart

theorem before_inj {c d : ℕ} (hc : c < n) (hd : d < n) (h : before n start c = before n start d) :
    c = d := by
  unfold before at h
  rw [mod_once (by omega), mod_once (by omega)] at h
  unfold wrap at h
  split_ifs at h <;> omega

/-- The chunks of the loop: all but one. -/
theorem mem_searched (c : ℕ) : c ∈ searched n start ↔ c < n ∧ c ≠ skipped n start := by
  unfold searched skipped
  rw [List.mem_map, mod_once (by omega)]
  constructor
  · rintro ⟨k, hk, rfl⟩
    rw [List.mem_range] at hk
    rw [mod_once (by omega)]
    unfold wrap
    split_ifs <;> omega
  · rintro ⟨hc, hne⟩
    have hother : c ≠ start + 1 ∧ (start + 1 = n → c ≠ 0) := by
      unfold wrap at hne
      split_ifs at hne <;> omega
    rcases Nat.lt_or_ge c (start + 2) with hlt | hge
    · refine ⟨c + n - (start + 2), ?_, ?_⟩
      · rw [List.mem_range]
        omega
      · rw [mod_once (by omega)]
        unfold wrap
        split_ifs <;> omega
    · refine ⟨c - (start + 2), ?_, ?_⟩
      · rw [List.mem_range]
        omega
      · rw [mod_once (by omega)]
        unfold wrap
        split_ifs <;> omega

/-- They come nearer to `start`. -/
theorem pairwise_searched :
    (searched n start).Pairwise fun c d => before n start d < before n start c := by
  unfold searched
  rw [List.pairwise_map]
  refine List.Pairwise.imp_of_mem ?_ List.pairwise_lt_range
  intro j k hj hk hjk
  rw [List.mem_range] at hj hk
  unfold before
  have hkm : (start + 2 + k) % n < n := Nat.mod_lt _ (by omega)
  have hjm : (start + 2 + j) % n < n := Nat.mod_lt _ (by omega)
  rw [mod_once (a := start + n - _) (by omega), mod_once (a := start + n - _) (by omega),
    mod_once (a := start + 2 + k) (by omega), mod_once (a := start + 2 + j) (by omega)]
  unfold wrap
  split_ifs <;> omega

end Around

/-! ## What the loop finds -/

section Scan

variable (s : SuperSeeder PeerPtr) (bs : BitSet)

/-- A chunk that the peer lacks. -/
def Lacks (chunk : ℕ) : Prop := chunk < s.chunkCounter.getNumChunks ∧ bs.get chunk = false

/-- A chunk that the peer lacks and that no downloader has, or has been sent. -/
def Fresh (chunk : ℕ) : Prop :=
  s.Lacks bs chunk ∧ s.chunkCounter.get chunk = s.numSeeders ∧ ∀ e ∈ s.activeChunks, e.1 ≠ chunk

/-- A chunk that the peer lacks and that the loop may take for its alternative. -/
def Taken (chunk : ℕ) : Prop := s.Lacks bs chunk ∧ s.chunkCounter.get chunk < 2 ^ 32 - 1

variable {s bs} {alternative : ℕ} {chunks : List ℕ}

/-- The loop stops at a chunk that no downloader has or was sent. -/
theorem searchChunk_fresh (hin : ∀ c ∈ chunks, c < s.chunkCounter.getNumChunks)
    (h : ∃ c ∈ chunks, s.Fresh bs c) : s.Fresh bs (s.searchChunk bs alternative chunks) := by
  induction chunks generalizing alternative with
  | nil =>
    obtain ⟨c, hc, -⟩ := h
    cases hc
  | cons chunk chunks ih =>
    have hin' : ∀ c ∈ chunks, c < s.chunkCounter.getNumChunks :=
      fun c hc => hin c (List.mem_cons_of_mem chunk hc)
    have hrest : ¬ s.Fresh bs chunk → ∃ c ∈ chunks, s.Fresh bs c := by
      intro hno
      obtain ⟨c, hc, hfresh⟩ := h
      rcases List.mem_cons.mp hc with rfl | hc
      · exact absurd hfresh hno
      · exact ⟨c, hc, hfresh⟩
    unfold searchChunk
    by_cases hhas : bs.get chunk = true
    · rw [if_pos hhas]
      exact ih hin' (hrest fun hf => by simp [hf.1.2] at hhas)
    · rw [if_neg hhas]
      dsimp only
      split_ifs with hnew hbound
      · exact ⟨⟨hin chunk List.mem_cons_self, by simpa using hhas⟩, hnew⟩
      · exact ih hin' (hrest fun hf => hnew hf.2)
      · exact ih hin' (hrest fun hf => hnew hf.2)

/-- Without one, its alternative is the last chunk that it may take. -/
theorem searchChunk_last (hin : ∀ c ∈ chunks, c < s.chunkCounter.getNumChunks)
    (h : ∀ c ∈ chunks, ¬ s.Fresh bs c) :
    (s.searchChunk bs alternative chunks = alternative ∧ ∀ c ∈ chunks, ¬ s.Taken bs c) ∨
      ∃ l c l', chunks = l ++ c :: l' ∧ s.searchChunk bs alternative chunks = c ∧ s.Taken bs c ∧
        ∀ d ∈ l', ¬ s.Taken bs d := by
  induction chunks generalizing alternative with
  | nil => exact Or.inl ⟨rfl, by simp⟩
  | cons chunk chunks ih =>
    have hin' : ∀ c ∈ chunks, c < s.chunkCounter.getNumChunks :=
      fun c hc => hin c (List.mem_cons_of_mem chunk hc)
    have h' : ∀ c ∈ chunks, ¬ s.Fresh bs c := fun c hc => h c (List.mem_cons_of_mem chunk hc)
    -- a chunk that is passed over leaves everything to the rest
    have hpass : ∀ alternative, ¬ s.Taken bs chunk →
        s.searchChunk bs alternative (chunk :: chunks) = s.searchChunk bs alternative chunks →
        (s.searchChunk bs alternative (chunk :: chunks) = alternative ∧
          ∀ c ∈ chunk :: chunks, ¬ s.Taken bs c) ∨
        ∃ l c l', chunk :: chunks = l ++ c :: l' ∧
          s.searchChunk bs alternative (chunk :: chunks) = c ∧ s.Taken bs c ∧
            ∀ d ∈ l', ¬ s.Taken bs d := by
      intro alternative hno heq
      rw [heq]
      rcases @ih alternative hin' h' with ⟨halt, hnone⟩ | ⟨l, c, l', hl, hc, htaken, hlast⟩
      · exact Or.inl ⟨halt, by simpa [hno] using hnone⟩
      · exact Or.inr ⟨chunk :: l, c, l', by rw [hl, List.cons_append], hc, htaken, hlast⟩
    by_cases hhas : bs.get chunk = true
    · refine hpass alternative (fun ht => by simp [ht.1.2] at hhas) ?_
      rw [searchChunk, if_pos hhas]
    · have hlacks : s.Lacks bs chunk := ⟨hin chunk List.mem_cons_self, by simpa using hhas⟩
      have hnew : ¬ (s.chunkCounter.get chunk = s.numSeeders ∧ ∀ e ∈ s.activeChunks, e.1 ≠ chunk) :=
        fun hf => h chunk List.mem_cons_self ⟨hlacks, hf⟩
      by_cases hbound : s.chunkCounter.get chunk < 2 ^ 32 - 1
      · have heq : s.searchChunk bs alternative (chunk :: chunks) = s.searchChunk bs chunk chunks := by
          rw [searchChunk, if_neg hhas]
          dsimp only
          rw [if_neg hnew, if_pos hbound]
        rw [heq]
        right
        rcases @ih chunk hin' h' with ⟨halt, hnone⟩ | ⟨l, c, l', hl, hc, htaken, hlast⟩
        · exact ⟨[], chunk, chunks, rfl, halt, ⟨hlacks, hbound⟩, hnone⟩
        · exact ⟨chunk :: l, c, l', by rw [hl, List.cons_append], hc, htaken, hlast⟩
      · refine hpass alternative (fun ht => hbound ht.2) ?_
        rw [searchChunk, if_neg hhas]
        dsimp only
        rw [if_neg hnew, if_neg hbound]

end Scan

/-! ## The law -/

section Law

variable (s : SuperSeeder PeerPtr) (bs : BitSet) (peer : PeerPtr)

/-- Where the loop of the next call starts. -/
def start : ℕ := bounded (s.random 0) s.chunkCounter.getNumChunks

/-- Exactly one chunk is sent, and the peer lacks it: one that no downloader has or was sent,
if there is one, or else one of the rarest. -/
def SendsWell : Prop :=
  ∃ c, s.allowedChunks bs peer = [c] ∧ s.Lacks bs c ∧ ((∃ d, s.Fresh bs d) → s.Fresh bs c) ∧
    ((¬ ∃ d, s.Fresh bs d) → ∀ d, s.Lacks bs d → s.chunkCounter.get c ≤ s.chunkCounter.get d)

/-- A chunk that the loop looks at and may take for its alternative. -/
def Alternative (chunk : ℕ) : Prop :=
  s.Taken bs chunk ∧ chunk ≠ skipped s.chunkCounter.getNumChunks s.start

/-- The bit set is not taken for a full one; the loop looks at a chunk that no downloader has or
was sent, or there is none and, of the chunks it may take, the one next to the start is one of
the rarest. -/
def ScanFinds : Prop :=
  bs.allOn = false ∧
    ((∃ c, s.Fresh bs c ∧ c ≠ skipped s.chunkCounter.getNumChunks s.start) ∨
      (¬ ∃ c, s.Fresh bs c) ∧ ∃ c, s.Alternative bs c ∧
        (∀ d, s.Alternative bs d → before s.chunkCounter.getNumChunks s.start c ≤
          before s.chunkCounter.getNumChunks s.start d) ∧
        ∀ d, s.Lacks bs d → s.chunkCounter.get c ≤ s.chunkCounter.get d)

variable {s bs peer}

/-- The chunk the loop comes to, for a set that is not empty. -/
theorem searchChunk_cases (hpos : 0 < s.chunkCounter.getNumChunks) :
    let n := s.chunkCounter.getNumChunks
    let chunk := s.searchChunk bs n (searched n s.start)
    ((∃ c, s.Fresh bs c ∧ c ≠ skipped n s.start) ∧ s.Fresh bs chunk) ∨
      (¬ ∃ c, s.Fresh bs c ∧ c ≠ skipped n s.start) ∧
        ((chunk = n ∧ ∀ c, ¬ s.Alternative bs c) ∨
          s.Alternative bs chunk ∧
            ∀ d, s.Alternative bs d → before n s.start chunk ≤ before n s.start d) := by
  intro n chunk
  have hstart : s.start < n := bounded_lt _ hpos
  have hmem := mem_searched hstart
  have hin : ∀ c ∈ searched n s.start, c < n := fun c hc => ((hmem c).mp hc).1
  by_cases hfresh : ∃ c, s.Fresh bs c ∧ c ≠ skipped n s.start
  · refine Or.inl ⟨hfresh, searchChunk_fresh hin ?_⟩
    obtain ⟨c, hc, hne⟩ := hfresh
    exact ⟨c, (hmem c).mpr ⟨hc.1.1, hne⟩, hc⟩
  · refine Or.inr ⟨hfresh, ?_⟩
    have hnone : ∀ c ∈ searched n s.start, ¬ s.Fresh bs c :=
      fun c hc hf => hfresh ⟨c, hf, ((hmem c).mp hc).2⟩
    rcases @searchChunk_last _ _ s bs n _ hin hnone with ⟨heq, hno⟩ | ⟨l, c, l', hl, heq, htaken, hno⟩
    · exact Or.inl ⟨heq, fun c hc => hno c ((hmem c).mpr ⟨hc.1.1.1, hc.2⟩) hc.1⟩
    · obtain rfl : chunk = c := heq
      have hc : chunk ∈ searched n s.start := by
        rw [hl]
        simp
      refine Or.inr ⟨⟨htaken, ((hmem chunk).mp hc).2⟩, fun d hd => ?_⟩
      have hdmem : d ∈ searched n s.start := (hmem d).mpr ⟨hd.1.1.1, hd.2⟩
      have hsorted := pairwise_searched hstart
      rw [hl] at hdmem hsorted
      have hright := (List.pairwise_append.mp hsorted).2.2
      rcases List.mem_append.mp hdmem with hleft | hdmem
      · exact (hright d hleft chunk List.mem_cons_self).le
      · rcases List.mem_cons.mp hdmem with rfl | hdmem
        · exact le_rfl
        · exact absurd hd.1 (hno d hdmem)

/-- **What a super seeder sends.**  A peer without a chunk of its own, that lacks some, is
sent a right one exactly when the loop comes to it. -/
theorem sendsWell_iff (hpeer : peer ∉ s.activePeers) (hlacks : ∃ c, s.Lacks bs c) :
    s.SendsWell bs peer ↔ s.ScanFinds bs := by
  have hpos : 0 < s.chunkCounter.getNumChunks := by
    obtain ⟨c, hc, -⟩ := hlacks
    omega
  have hstart : s.start < s.chunkCounter.getNumChunks := bounded_lt _ hpos
  unfold SendsWell ScanFinds allowedChunks
  rw [if_neg hpeer]
  cases hall : bs.allOn with
  | true => simp
  | false =>
    rw [if_neg Bool.false_ne_true]
    dsimp only
    rw [show bounded (s.random 0) s.chunkCounter.getNumChunks = s.start from rfl]
    have hcases := @searchChunk_cases _ _ s bs hpos
    dsimp only at hcases
    generalize s.searchChunk bs s.chunkCounter.getNumChunks
      (searched s.chunkCounter.getNumChunks s.start) = chunk at hcases ⊢
    rcases hcases with ⟨hfound, hfresh⟩ | ⟨hno, hlast⟩
    · refine iff_of_true ⟨chunk, if_pos hfresh.1.1, hfresh.1, fun _ => hfresh, ?_⟩ ⟨rfl, Or.inl hfound⟩
      exact fun hnone => absurd ⟨chunk, hfresh⟩ hnone
    · constructor
      · rintro ⟨c, hc, -, hfresh, hrare⟩
        have hlt : chunk < s.chunkCounter.getNumChunks := by
          by_contra hge
          rw [if_neg hge] at hc
          cases hc
        rw [if_pos hlt] at hc
        obtain rfl : chunk = c := List.singleton_inj.mp hc
        obtain ⟨halt, hnext⟩ := hlast.resolve_left fun h => hlt.ne h.1
        have hnone : ¬ ∃ d, s.Fresh bs d := fun h => hno ⟨chunk, hfresh h, halt.2⟩
        exact ⟨rfl, Or.inr ⟨hnone, chunk, halt, hnext, hrare hnone⟩⟩
      · rintro ⟨-, hfound | ⟨hnone, c, halt, hnext, hrare⟩⟩
        · exact absurd hfound hno
        · rcases hlast with ⟨-, hempty⟩ | ⟨halt', hnext'⟩
          · exact absurd halt (hempty c)
          · obtain rfl : chunk = c := before_inj hstart halt'.1.1.1 halt.1.1.1
              (le_antisymm (hnext' c halt) (hnext chunk halt'))
            exact ⟨chunk, if_pos halt.1.1.1, halt.1.1, fun h => absurd h hnone, fun _ => hrare⟩

/-- The chunk 0 of four. -/
def firstChunk : BitSet := (BitSet.new 4).set 0 true

/-- Two downloaders that have the chunk 0 are sent the chunks 2 and 3, and one gets its chunk. -/
def twoDownloaders : SuperSeeder ℕ :=
  (((new 4 fun _ => 0).peerAdded (fun _ => firstChunk) 1).peerAdded (fun _ => firstChunk) 2).have_
    (fun _ => firstChunk) 1 2

/-- A third one lacks these two chunks: nobody has the chunk 3, which it is sent. -/
theorem sendsWell_twoDownloaders :
    (twoDownloaders.SendsWell (firstChunk.set 1 true) 7 ↔
        twoDownloaders.ScanFinds (firstChunk.set 1 true)) ∧
      twoDownloaders.activeChunks = [(3, 2), (2, 1)] ∧ twoDownloaders.chunkCounter.get 2 = 1 ∧
      twoDownloaders.chunkCounter.get 3 = 0 ∧
      twoDownloaders.allowedChunks (firstChunk.set 1 true) 7 = [3] :=
  ⟨sendsWell_iff (by decide +kernel) ⟨2, by decide +kernel, by decide +kernel⟩, by decide +kernel,
    by decide +kernel, by decide +kernel, by decide +kernel⟩

/-- **A single chunk** is never sent. -/
theorem single_chunk_unsent : ¬ ∀ (s : SuperSeeder ℕ) (bs : BitSet) (peer : ℕ),
    peer ∉ s.activePeers → (∃ c, s.Lacks bs c) → s.SendsWell bs peer := by
  intro hall
  obtain ⟨c, hc, -⟩ := hall (new 1 fun _ => 0) (BitSet.new 1) 7 (AList.notMem_empty 7)
    ⟨0, by decide, by decide⟩
  revert hc
  rw [show (new 1 fun _ => 0 : SuperSeeder ℕ).allowedChunks (BitSet.new 1) 7 = [] from by
    decide +kernel]
  simp

end Law

end SuperSeeder

end KTorrent
