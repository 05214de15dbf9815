import KTorrent.Lib.ReverseIndex
import KTorrent.Lib.Run
import KTorrent.Peer.ChunkCounter

/-!
# The super seeder

The model of `SuperSeeder`, which lets every downloader know of one chunk at a
time.

* `peerAdded`, `have_`, `haveAll`, `bitset`, `peerRemoved`, `sendChunk` — as the
  source computes them.  What they ask of a peer, its bit set, is a parameter.
* `allStates_assigned` — whatever the calls, the two tables of the super seeder,
  from peers to their chunks and back, are inverse to each other.
-/

namespace KTorrent

/-- `SuperSeeder`, for pointers to peers.  `random` is what the global random generator yields
from here on. -/
structure SuperSeeder (PeerPtr : Type) [DecidableEq PeerPtr] where
  chunkCounter : ChunkCounter
  /-- A `QMultiMap`: of the pairs of one chunk the newest is the first. -/
  activeChunks : List (ℕ × PeerPtr)
  activePeers : AList fun _ : PeerPtr => ℕ
  numSeeders : ℕ
  random : ℕ → UInt32

namespace SuperSeeder

variable {PeerPtr : Type} [DecidableEq PeerPtr]

/-- `SuperSeeder(num_chunks)`. -/
def new (numChunks : ℕ) (random : ℕ → UInt32) : SuperSeeder PeerPtr :=
  { chunkCounter := .new numChunks, activeChunks := [], activePeers := ∅, numSeeders := 0
    random := random }

/-- `QRandomGenerator::bounded`: the highest bits of the product with a random number. -/
def bounded (random : UInt32) (highest : ℕ) : ℕ := random.toNat * highest / 2 ^ 32

/-- The chunks the loop of `sendChunk` looks at: from `start + 2` around to `start`. -/
def searched (numChunks start : ℕ) : List ℕ :=
  (List.range (numChunks - 1)).map fun k => (start + 2 + k) % numChunks

/-- The loop of `sendChunk`, over the chunks still to be looked at: a chunk no downloader has,
or else the alternative. -/
def searchChunk (s : SuperSeeder PeerPtr) (bs : BitSet) : ℕ → List ℕ → ℕ
  | alternative, [] => alternative
  | alternative, chunk :: chunks =>
    if bs.get chunk then s.searchChunk bs alternative chunks
    else
      let numChunkOwners := s.chunkCounter.get chunk
      if numChunkOwners = s.numSeeders ∧ ∀ e ∈ s.activeChunks, e.1 ≠ chunk then chunk
      else if numChunkOwners < 2 ^ 32 - 1 then s.searchChunk bs chunk chunks
      else s.searchChunk bs alternative chunks

/-- `SuperSeeder::sendChunk`, for a peer with the bit set `bs`. -/
def sendChunk (s : SuperSeeder PeerPtr) (bs : BitSet) (peer : PeerPtr) : SuperSeeder PeerPtr :=
  if peer ∈ s.activePeers then s
  else if bs.allOn then s
  else
    let numChunks := s.chunkCounter.getNumChunks
    let chunk := s.searchChunk bs numChunks (searched numChunks (bounded (s.random 0) numChunks))
    let s := { s with random := fun k => s.random (k + 1) }
    if chunk < numChunks then
      { s with
        activeChunks := (chunk, peer) :: s.activeChunks
        activePeers := s.activePeers.insert peer chunk }
    else s

/-- `SuperSeeder::have`; `bits` are the bit sets of the peers. -/
def have_ (s : SuperSeeder PeerPtr) (bits : PeerPtr → BitSet) (peer : PeerPtr) (chunk : ℕ) :
    SuperSeeder PeerPtr :=
  -- the others that were sent this chunk
  let peers := (s.activeChunks.filter fun e => e.1 = chunk ∧ peer ≠ e.2).map (·.2)
  let s := { s with
    chunkCounter := s.chunkCounter.inc chunk
    numSeeders := if (bits peer).allOn then s.numSeeders + 1 else s.numSeeders
    activePeers := peers.foldl (fun m p => m.erase p) s.activePeers
    activeChunks := s.activeChunks.filter fun e => ¬ (e.1 = chunk ∧ peer ≠ e.2) }
  peers.foldl (fun s p => s.sendChunk (bits p) p) s

/-- What `haveAll` and `peerRemoved` begin with: the peer loses its chunk. -/
def dropActive (s : SuperSeeder PeerPtr) (peer : PeerPtr) : SuperSeeder PeerPtr :=
  match s.activePeers.lookup peer with
  | none => s
  | some chunk =>
    { s with
      activeChunks := s.activeChunks.filter fun e => e ≠ (chunk, peer)
      activePeers := s.activePeers.erase peer }

/-- `SuperSeeder::haveAll`. -/
def haveAll (s : SuperSeeder PeerPtr) (peer : PeerPtr) : SuperSeeder PeerPtr :=
  let s := s.dropActive peer
  { s with numSeeders := s.numSeeders + 1 }

/-- `SuperSeeder::bitset`. -/
def bitset (s : SuperSeeder PeerPtr) (bits : PeerPtr → BitSet) (peer : PeerPtr) (bs : BitSet) :
    SuperSeeder PeerPtr :=
  if bs.allOn then s.haveAll peer
  else (List.range bs.numBits.toNat).foldl
    (fun s i => if bs.get i then s.have_ bits peer i else s) s

/-- `SuperSeeder::peerAdded`. -/
def peerAdded (s : SuperSeeder PeerPtr) (bits : PeerPtr → BitSet) (peer : PeerPtr) :
    SuperSeeder PeerPtr :=
  if (bits peer).allOn then { s with numSeeders := s.numSeeders + 1 }
  else
    let s := { s with chunkCounter := s.chunkCounter.incBitSet (bits peer) }
    s.sendChunk (bits peer) peer

/-- `SuperSeeder::peerRemoved`. -/
def peerRemoved (s : SuperSeeder PeerPtr) (bits : PeerPtr → BitSet) (peer : PeerPtr) :
    SuperSeeder PeerPtr :=
  let s := s.dropActive peer
  { s with
    numSeeders := if (bits peer).allOn ∧ s.numSeeders > 0 then s.numSeeders - 1 else s.numSeeders
    chunkCounter := s.chunkCounter.decBitSet (bits peer) }

/-! ## What each call leaves alone -/

variable (s : SuperSeeder PeerPtr) (bits : PeerPtr → BitSet) (bs : BitSet) (peer : PeerPtr)

/-- A chunk is handed out, or nothing changes but the random numbers. -/
theorem sendChunk_cases :
    s.sendChunk bs peer = s ∨
      (s.sendChunk bs peer = { s with random := fun k => s.random (k + 1) }) ∨
      (s.activePeers.lookup peer = none ∧ ∃ chunk, s.sendChunk bs peer =
        { s with
          random := fun k => s.random (k + 1)
          activeChunks := (chunk, peer) :: s.activeChunks
          activePeers := s.activePeers.insert peer chunk }) := by
  unfold sendChunk
  split
  · exact .inl rfl
  rename_i hpeer
  split
  · exact .inl rfl
  dsimp only
  split
  · exact .inr (.inr ⟨AList.lookup_eq_none.mpr hpeer, _, rfl⟩)
  · exact .inr (.inl rfl)

theorem sendChunk_counts : (s.sendChunk bs peer).chunkCounter = s.chunkCounter ∧
    (s.sendChunk bs peer).numSeeders = s.numSeeders := by
  rcases sendChunk_cases s bs peer with h | h | ⟨-, chunk, h⟩
  · rw [h]; exact ⟨rfl, rfl⟩
  · rw [h]; exact ⟨rfl, rfl⟩
  · rw [h]; exact ⟨rfl, rfl⟩

theorem foldl_sendChunk_counts : ∀ (peers : List PeerPtr) (s : SuperSeeder PeerPtr),
    let s' := peers.foldl (fun s p => s.sendChunk (bits p) p) s
    s'.chunkCounter = s.chunkCounter ∧ s'.numSeeders = s.numSeeders := by
  intro peers
  induction peers with
  | nil => intro s; exact ⟨rfl, rfl⟩
  | cons p peers ih =>
    intro s
    obtain ⟨hc, hn⟩ := ih (s.sendChunk (bits p) p)
    obtain ⟨hc', hn'⟩ := sendChunk_counts s (bits p) p
    exact ⟨hc.trans hc', hn.trans hn'⟩

theorem dropActive_counts : (s.dropActive peer).chunkCounter = s.chunkCounter ∧
    (s.dropActive peer).numSeeders = s.numSeeders := by
  unfold dropActive
  split
  · exact ⟨rfl, rfl⟩
  · exact ⟨rfl, rfl⟩

end SuperSeeder

/-! ## Runs -/

/-- A call of the super seeder, with the bit sets the peers have at that time. -/
inductive SuperSeederCall (PeerPtr : Type) where
  | peerAdded (bits : PeerPtr → BitSet) (peer : PeerPtr)
  | have_ (bits : PeerPtr → BitSet) (peer : PeerPtr) (chunk : ℕ)
  | haveAll (peer : PeerPtr)
  | bitset (bits : PeerPtr → BitSet) (peer : PeerPtr) (bs : BitSet)
  | peerRemoved (bits : PeerPtr → BitSet) (peer : PeerPtr)

namespace SuperSeeder

open Runs ReverseIndex

variable {PeerPtr : Type} [DecidableEq PeerPtr]

/-- One call. -/
def call (s : SuperSeeder PeerPtr) : SuperSeederCall PeerPtr → SuperSeeder PeerPtr
  | .peerAdded bits peer => s.peerAdded bits peer
  | .have_ bits peer chunk => s.have_ bits peer chunk
  | .haveAll peer => s.haveAll peer
  | .bitset bits peer bs => s.bitset bits peer bs
  | .peerRemoved bits peer => s.peerRemoved bits peer

/-- The two tables say the same. -/
structure Assigned (s : SuperSeeder PeerPtr) : Prop where
  lookup_iff : ∀ p c, s.activePeers.lookup p = some c ↔ (c, p) ∈ s.activeChunks
  once : ∀ p c, s.activePeers.lookup p = some c → s.activeChunks.count (c, p) = 1
  atMostOne : ∀ p c c', (c, p) ∈ s.activeChunks → (c', p) ∈ s.activeChunks → c = c'

/-- After `peerRemoved` no entry mentions the peer. -/
def Forgets (s : SuperSeeder PeerPtr) : SuperSeederCall PeerPtr → Prop
  | .peerRemoved bits peer =>
    (s.peerRemoved bits peer).activePeers.lookup peer = none ∧
      ∀ c, (c, peer) ∉ (s.peerRemoved bits peer).activeChunks
  | _ => True

/-- The tables of the super seeder are inverse to each other. -/
def Consistent (s : SuperSeeder PeerPtr) : Prop := Inverse s.activePeers s.activeChunks

variable {s : SuperSeeder PeerPtr} {bits : PeerPtr → BitSet} {bs : BitSet} {peer : PeerPtr}

theorem Consistent.assigned (h : s.Consistent) : s.Assigned where
  lookup_iff := h.lookup_iff
  once p c hp := List.count_eq_one_of_mem h.nodup ((h.lookup_iff p c).mp hp)
  atMostOne _ _ _ hc hc' := h.eq_of_mem hc hc'

theorem Consistent.sendChunk (h : s.Consistent) : (s.sendChunk bs peer).Consistent := by
  rcases sendChunk_cases s bs peer with heq | heq | ⟨hpeer, chunk, heq⟩
  · rw [heq]; exact h
  · rw [heq]; exact h
  · rw [heq]; exact Inverse.insert h hpeer chunk

theorem Consistent.foldl_sendChunk : ∀ (peers : List PeerPtr) (s : SuperSeeder PeerPtr),
    s.Consistent → (peers.foldl (fun s p => s.sendChunk (bits p) p) s).Consistent := by
  intro peers
  induction peers with
  | nil => intro s h; exact h
  | cons p peers ih => intro s h; exact ih _ h.sendChunk

/-- The peers that are taken off the chunk are those whose pairs go. -/
theorem Consistent.have_ (h : s.Consistent) (chunk : ℕ) : (s.have_ bits peer chunk).Consistent := by
  apply Consistent.foldl_sendChunk
  refine Inverse.filter h _ _ fun p => ?_
  rw [List.mem_map]
  constructor
  · rintro ⟨e, he, rfl⟩
    obtain ⟨hmem, htaken⟩ := List.mem_filter.mp he
    exact ⟨e.1, hmem, by simpa using htaken⟩
  · rintro ⟨c, hmem, htaken⟩
    exact ⟨(c, p), List.mem_filter.mpr ⟨hmem, by simpa using htaken⟩, rfl⟩

theorem Consistent.dropActive (h : s.Consistent) : (s.dropActive peer).Consistent := by
  unfold SuperSeeder.dropActive
  split
  · exact h
  · rename_i chunk hpeer
    exact Inverse.erase h hpeer

theorem dropActive_lookup : (s.dropActive peer).activePeers.lookup peer = none := by
  unfold dropActive
  split
  · assumption
  · exact AList.lookup_erase _ _

theorem Consistent.bitset (h : s.Consistent) : (s.bitset bits peer bs).Consistent := by
  unfold SuperSeeder.bitset
  split
  · exact h.dropActive
  · refine List.foldlRecOn (motive := Consistent) _ _ h fun s hs i _ => ?_
    split
    · exact Consistent.have_ hs i
    · exact hs

/-- **Every call keeps the tables inverse to each other.** -/
theorem Consistent.call (h : s.Consistent) (c : SuperSeederCall PeerPtr) :
    (s.call c).Consistent := by
  cases c with
  | peerAdded bits peer =>
    change (s.peerAdded bits peer).Consistent
    unfold SuperSeeder.peerAdded
    split
    · exact h
    · exact Consistent.sendChunk (s := { s with chunkCounter := _ }) h
  | have_ bits peer chunk => exact h.have_ chunk
  | haveAll peer => exact h.dropActive
  | bitset bits peer bs => exact h.bitset
  | peerRemoved bits peer => exact h.dropActive

theorem Consistent.forgets (h : s.Consistent) (c : SuperSeederCall PeerPtr) : s.Forgets c := by
  cases c with
  | peerRemoved bits peer => exact ⟨dropActive_lookup, fun _ => h.dropActive.notMem dropActive_lookup⟩
  | _ => trivial

theorem consistent_new (numChunks : ℕ) (random : ℕ → UInt32) :
    (new numChunks random : SuperSeeder PeerPtr).Consistent := inverse_empty

/-- **The tables of the super seeder.**  In every state of every run, with whatever bit sets
the peers have and whatever the random numbers are, a peer has a chunk exactly when the pair
of the two stands once in the other table, and a peer that was removed is in neither. -/
theorem allStates_assigned (numChunks : ℕ) (random : ℕ → UInt32)
    (calls : List (SuperSeederCall PeerPtr)) :
    AllStates call Assigned (new numChunks random) calls ∧
      AllSteps call Forgets (new numChunks random) calls := by
  constructor
  · exact AllStates.mono (fun _ h => h.assigned)
      (allStates_of_step (fun _ c h => h.call c) calls _ (consistent_new numChunks random))
  · exact allSteps_of_step (fun _ c h => h.call c) (fun _ c h => h.forgets c) calls _
      (consistent_new numChunks random)

end SuperSeeder

end KTorrent
