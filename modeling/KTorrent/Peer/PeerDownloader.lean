import KTorrent.Peer.SendChunk
import KTorrent.Torrent.LoadLayout

/-!
# How many chunks a peer may download

The model of the part of `peer/peerdownloader.cpp` that decides whether a peer
takes another chunk.  The size of a chunk in pieces is worked out when the
downloader is made, and the decision divides by it.

* `PeerDownloader` — what the decision reads.
* `getMaxChunkDownloads`, `canDownloadChunk` — as the source has them; `none` is a
  division by zero.
* `decides_iff` — the decision works for the peers of a torrent whose chunks have at
  least one piece, and for no other.
-/

namespace KTorrent

/-- A `PeerDownloader`, as far as the number of its chunks is concerned. -/
structure PeerDownloader where
  /-- The download rate of the peer; `none` when the peer is gone. -/
  peer : Option UInt32
  /-- How many chunk downloads have grabbed it. -/
  grabbed : Int32
  nearlyDone : Bool
  waitQueue : List Peer.Request
  maxWaitQueueSize : UInt32
  /-- The size of a chunk, in pieces. -/
  chunkSize : UInt32
  deriving DecidableEq, Repr

/-- A division of the program. -/
def divided (a b : UInt32) : Option UInt32 := if b = 0 then none else some (a / b)

namespace PeerDownloader

/-- The constructor. -/
def new (peer : Option UInt32) (chunkSize : UInt32) : PeerDownloader :=
  { peer := peer
    grabbed := 0
    nearlyDone := false
    waitQueue := []
    maxWaitQueueSize := 25
    chunkSize := chunkSize / UInt32.ofNat maxPieceLen }

variable (p : PeerDownloader)

/-- `PieceDownloader::isNearlyDone`. -/
def isNearlyDone : Bool := p.grabbed = 1 && p.nearlyDone

/-- `PeerDownloader::canAddRequest`. -/
def canAddRequest : Bool := UInt32.ofNat p.waitQueue.length < p.maxWaitQueueSize

/-- `PeerDownloader::getMaxChunkDownloads`, with the download rate of the peer. -/
def getMaxChunkDownloads (downloadRate : UInt32) : Option UInt32 :=
  let rateKbs := downloadRate / 1024
  let numExtra := rateKbs / 25
  if 16 ≤ p.chunkSize then (divided (16 * numExtra) p.chunkSize).map fun n => 1 + n
  else (divided 16 p.chunkSize).map fun n => 1 + n * numExtra

/-- `PeerDownloader::canDownloadChunk`. -/
def canDownloadChunk : Option Bool :=
  match p.peer with
  | none => some false
  | some downloadRate => do
    let max ← p.getMaxChunkDownloads downloadRate
    return (p.grabbed < max.toInt32 || p.isNearlyDone) && p.canAddRequest

/-- The downloader belongs to a peer of the torrent: the size of the chunks is cut to 32 bits
when it is handed to the peer. -/
def OfTorrent (tor : Torrent) : Prop :=
  p.chunkSize = (new p.peer (UInt32.ofNat tor.chunkSize)).chunkSize

/-- Nothing is divided by zero, and a peer with no chunk yet and room for requests gets one. -/
structure Decides : Prop where
  /-- The number of chunks is at least one. -/
  max : ∀ downloadRate, p.peer = some downloadRate →
    ∃ n, p.getMaxChunkDownloads downloadRate = some n ∧ 1 ≤ n
  /-- The answer is given. -/
  answers : ∃ may, p.canDownloadChunk = some may
  /-- The first chunk is allowed. -/
  first : p.peer.isSome → p.grabbed = 0 → p.canAddRequest → p.canDownloadChunk = some true

/-! ## The number of chunks -/

/-- What a chunk of at least one piece allows: the multiplications and the sum stay small. -/
theorem getMaxChunkDownloads_spec (hsize : p.chunkSize ≠ 0) (downloadRate : UInt32) :
    ∃ n, p.getMaxChunkDownloads downloadRate = some n ∧ 1 ≤ n.toNat ∧ n.toNat < 2 ^ 31 := by
  have hrate := downloadRate.toNat_lt
  unfold getMaxChunkDownloads divided
  simp only [if_neg hsize, Option.map_some]
  have hextra : (downloadRate / 1024 / 25).toNat ≤ 2 ^ 18 := by
    simp only [UInt32.toNat_div, UInt32.reduceToNat]
    omega
  generalize downloadRate / 1024 / 25 = extra at hextra ⊢
  split
  · refine ⟨_, rfl, ?_⟩
    have hdiv : (16 * extra.toNat) % 2 ^ 32 / p.chunkSize.toNat ≤ 16 * extra.toNat :=
      (Nat.div_le_self _ _).trans (Nat.mod_le _ _)
    simp only [UInt32.toNat_add, UInt32.toNat_div, UInt32.toNat_mul, UInt32.reduceToNat]
    generalize (16 * extra.toNat) % 2 ^ 32 / p.chunkSize.toNat = q at hdiv ⊢
    omega
  · refine ⟨_, rfl, ?_⟩
    have hdiv : 16 / p.chunkSize.toNat ≤ 16 := Nat.div_le_self _ _
    have hmul : 16 / p.chunkSize.toNat * extra.toNat ≤ 16 * 2 ^ 18 := Nat.mul_le_mul hdiv hextra
    simp only [UInt32.toNat_add, UInt32.toNat_div, UInt32.toNat_mul, UInt32.reduceToNat]
    generalize 16 / p.chunkSize.toNat * extra.toNat = q at hmul ⊢
    omega

/-- A chunk of less than a piece is divided by. -/
theorem getMaxChunkDownloads_zero (hsize : p.chunkSize = 0) (downloadRate : UInt32) :
    p.getMaxChunkDownloads downloadRate = none := by
  unfold getMaxChunkDownloads divided
  simp [hsize]

variable {p}

theorem decides_of_chunkSize (hsize : p.chunkSize ≠ 0) : p.Decides where
  max downloadRate _ := by
    obtain ⟨n, hn, hone, -⟩ := p.getMaxChunkDownloads_spec hsize downloadRate
    exact ⟨n, hn, UInt32.le_iff_toNat_le.mpr hone⟩
  answers := by
    unfold canDownloadChunk
    cases p.peer with
    | none => exact ⟨false, rfl⟩
    | some downloadRate =>
      obtain ⟨n, hn, -⟩ := p.getMaxChunkDownloads_spec hsize downloadRate
      simp [hn]
  first hpeer hgrabbed hroom := by
    obtain ⟨downloadRate, hrate⟩ := Option.isSome_iff_exists.mp hpeer
    obtain ⟨n, hn, hone, hlt⟩ := p.getMaxChunkDownloads_spec hsize downloadRate
    have hless : p.grabbed < n.toInt32 := by
      have hint : n.toInt32.toInt = n.toNat := by
        rw [← UInt32.ofNat_toNat (x := n), UInt32.toInt32_ofNat', Int32.toInt_ofNat_of_lt hlt,
          UInt32.ofNat_toNat]
      rw [hgrabbed, Int32.lt_iff_toInt_lt, hint, Int32.toInt_zero]
      exact_mod_cast hone
    unfold canDownloadChunk
    rw [hrate]
    simp [hn, hless, hroom]

/-- **Deciding on another chunk.**  For every torrent the downloaders of its peers decide,
whatever their state and the rate, exactly when its chunks have at least one piece, in the 32
bits that a peer keeps of their size. -/
theorem decides_iff (tor : Torrent) :
    (∀ p : PeerDownloader, p.OfTorrent tor → p.Decides) ↔ maxPieceLen ≤ u32 tor.chunkSize := by
  have hsize : (UInt32.ofNat tor.chunkSize / UInt32.ofNat maxPieceLen).toNat =
      u32 tor.chunkSize / maxPieceLen := by
    rw [UInt32.toNat_div, UInt32.toNat_ofNat', UInt32.toNat_ofNat']
    rfl
  constructor
  · intro h
    by_contra hsmall
    have hzero : (new (some 0) (UInt32.ofNat tor.chunkSize)).chunkSize = 0 := by
      refine UInt32.toNat_inj.mp (hsize.trans (Nat.div_eq_of_lt (by omega)))
    obtain ⟨n, hn, -⟩ := (h (new (some 0) (UInt32.ofNat tor.chunkSize)) rfl).max 0 rfl
    rw [getMaxChunkDownloads_zero _ hzero] at hn
    cases hn
  · intro hlarge p hp
    refine decides_of_chunkSize fun hzero => ?_
    have hpos : 0 < u32 tor.chunkSize / maxPieceLen := Nat.div_pos hlarge (by decide)
    rw [OfTorrent, hzero] at hp
    rw [← hsize, show UInt32.ofNat tor.chunkSize / UInt32.ofNat maxPieceLen = 0 from hp.symm] at hpos
    exact absurd hpos (by decide)

theorem smallLength_lt : 16383 < 2 ^ 63 := by decide

/-- The info dictionary of a file that is one byte smaller than a piece, in one chunk. -/
def smallInfo : List (BString × BTree) :=
  [(⟨ascii "length", Torrent.lengthKey_short⟩, .int ⟨16383, smallLength_lt⟩),
    (⟨ascii "name", Torrent.nameKey_short⟩, .string ⟨ascii "a", Torrent.name_short⟩),
    (⟨ascii "piece length", Torrent.pieceLengthKey_short⟩, .int ⟨16383, smallLength_lt⟩),
    (⟨ascii "pieces", Torrent.piecesKey_short⟩, .string ⟨List.replicate 20 0, by decide⟩)]

/-- A torrent of it. -/
def smallPieceLength : List (BString × BTree) :=
  [(⟨ascii "info", Torrent.infoKey_short⟩, .dict smallInfo)]

/-- Texts of ASCII characters, and every address is valid. -/
def asciiQt : Qt := { fromUtf8 := List.map fun b => Char.ofNat b.toNat, isValidUrl := fun _ => true }

/-- **A chunk of less than a piece**: the torrent is accepted, and a connected peer without any
chunk divides by zero. -/
theorem smallPieceLength_divides :
    ∃ tor, Torrent.load asciiQt (BTree.dict smallPieceLength).emitted 200 = .ok tor ∧
      (new (some 0) (UInt32.ofNat tor.chunkSize)).canDownloadChunk = none ∧
      ¬ ∀ p : PeerDownloader, p.OfTorrent tor → p.Decides := by
  have hload : (Torrent.load asciiQt (BTree.dict smallPieceLength).emitted 200).toOption.map
      Torrent.chunkSize = some 16383 := by
    decide +kernel
  cases hresult : Torrent.load asciiQt (BTree.dict smallPieceLength).emitted 200 with
  | error e =>
    rw [hresult] at hload
    cases hload
  | ok tor =>
    rw [hresult] at hload
    have hsize : tor.chunkSize = 16383 := Option.some.inj hload
    have hnone : (new (some 0) (UInt32.ofNat tor.chunkSize)).canDownloadChunk = none := by
      rw [hsize]
      decide +kernel
    refine ⟨tor, rfl, hnone, fun h => ?_⟩
    obtain ⟨may, hmay⟩ := (h _ rfl : (new (some 0) (UInt32.ofNat tor.chunkSize)).Decides).answers
    rw [hnone] at hmay
    cases hmay

end PeerDownloader
end KTorrent
