import KTorrent.Util.Endian

/-!
# Answering a REQUEST

The upload path of one peer: `Peer::handleRequest` takes a REQUEST message off
the wire, `PeerUploader::handleRequests` hands it to `Peer::sendChunk`, and
`Packet::create` builds the PIECE packet.  All quantities are the `Uint32`s of
the source, so the sums `begin + len`, `pending + 13 + len` and `13 + len` wrap.

* `handleRequest_request` — every triple of 32-bit values is what some REQUEST
  message carries: nothing before `sendChunk` bounds the offset or the length.
* `Answered` — what an accepted request ought to guarantee: the range lies in
  the chunk, the pending bytes stay under the limit, and the packet is exactly
  as long as what is written into it.
* `sendChunk_answered_iff` — a request is answered so exactly when none of the
  sums the two checks compare has wrapped around unnoticed (`WrapsUnnoticed`).
-/

namespace KTorrent
namespace Peer

/-- `MAX_PENDING_UPLOAD_BLOCKS`. -/
def maxPendingUploadBlocks : UInt32 := 512

/-- `MAX_PENDING_UPLOAD_BYTES`. -/
def maxPendingUploadBytes : UInt32 := maxPendingUploadBlocks * (13 + 16384)

/-- A request for part of a chunk. -/
structure Request where
  /-- Index of the chunk. -/
  index : UInt32
  /-- Offset in the chunk. -/
  offset : UInt32
  /-- Number of bytes asked for. -/
  length : UInt32
  deriving DecidableEq, Repr

/-- `Peer::handleRequest`: a REQUEST message is 13 bytes, the type and three
words; the peer is killed (`none`) for any other length. -/
def handleRequest (packet : List UInt8) : Option Request :=
  if packet.length ≠ 13 then none
  else
    match readUint32 packet 1, readUint32 packet 5, readUint32 packet 9 with
    | some index, some begin_, some len => some ⟨index, begin_, len⟩
    | _, _, _ => none

/-- The REQUEST message for a request. -/
def requestMessage (r : Request) : List UInt8 :=
  6 :: (writeUint32 r.index ++ (writeUint32 r.offset ++ writeUint32 r.length))

/-- Every triple of 32-bit values arrives as some REQUEST message. -/
theorem handleRequest_request (r : Request) : handleRequest (requestMessage r) = some r := by
  have h1 : readUint32 (requestMessage r) 1 = some r.index :=
    readUint32_writeUint32 [6] (writeUint32 r.offset ++ writeUint32 r.length) r.index
  have h5 : readUint32 (requestMessage r) 5 = some r.offset := by
    have := readUint32_writeUint32 (6 :: writeUint32 r.index) (writeUint32 r.length) r.offset
    simpa [requestMessage] using this
  have h9 : readUint32 (requestMessage r) 9 = some r.length := by
    have := readUint32_writeUint32 (6 :: (writeUint32 r.index ++ writeUint32 r.offset)) [] r.length
    simpa [requestMessage] using this
  have hlen : (requestMessage r).length = 13 := by simp [requestMessage]
  simp [handleRequest, h1, h5, h9, hlen]

/-! ## The packet -/

/-- What the upload path sees of a chunk: its size, and the cache behind
`Chunk::readPiece`, which copies the bytes asked for or fails. -/
structure Chunk where
  /-- `Chunk::getSize`. -/
  size : UInt32
  /-- `Chunk::readPiece(off, len, data)`: the bytes it copies to `data`. -/
  readPiece : UInt32 → UInt32 → Option (List UInt8)
  /-- A successful read copies `len` bytes. -/
  readPiece_length : ∀ off len d, readPiece off len = some d → d.length = len.toNat

/-- A packet under construction: the array allocated for it, and the writes made
into that array, each an offset and the bytes put there. -/
structure Packet where
  /-- Length of the `data` array. -/
  size : UInt32
  /-- Message type. -/
  type : UInt8
  /-- The writes into `data`, in order. -/
  writes : List (ℕ × List UInt8)
  deriving DecidableEq, Repr

/-- The write stays inside an array of `n` bytes. -/
def WriteInside (n : ℕ) (w : ℕ × List UInt8) : Prop := w.1 + w.2.length ≤ n

/-- `Packet::Packet(size, type)`: length prefix and type byte. -/
def Packet.new (size : UInt32) (type : UInt8) : Packet :=
  { size := size, type := type, writes := [(0, writeUint32 (size - 4)), (4, [type])] }

/-- `Packet::create(index, begin, len, ch)`: a PIECE packet.  The result of
`readPiece` is not looked at, a failed read just copies nothing. -/
def Packet.create (index begin_ len : UInt32) (ch : Chunk) : Packet :=
  let pkt := Packet.new (13 + len) 7
  { pkt with
    writes := pkt.writes ++ [(5, writeUint32 index), (9, writeUint32 begin_)] ++
      (match ch.readPiece begin_ len with
        | some d => [(13, d)]
        | none => []) }

/-! ## Sending a chunk -/

/-- The two counters of the packet socket that `sendChunk` consults. -/
structure PacketSocket where
  /-- `numPendingPieceUploads()`. -/
  pendingPieceUploads : UInt32
  /-- `numPendingPieceUploadBytes()`. -/
  pendingPieceUploadBytes : UInt32
  deriving DecidableEq, Repr

/-- The two checks of `Peer::sendChunk`. -/
def accepts (sock : PacketSocket) (begin_ len : UInt32) (ch : Chunk) : Prop :=
  ¬ (begin_ ≥ ch.size ∨ begin_ + len > ch.size) ∧
    ¬ (sock.pendingPieceUploads ≥ maxPendingUploadBlocks ∨
      sock.pendingPieceUploadBytes + 13 + len > maxPendingUploadBytes)

instance (sock : PacketSocket) (begin_ len : UInt32) (ch : Chunk) :
    Decidable (accepts sock begin_ len ch) := by
  unfold accepts
  infer_instance

/-- `Peer::sendChunk`: the packet handed to the socket, `none` when the request
is refused. -/
def sendChunk (sock : PacketSocket) (index begin_ len : UInt32) (ch : Chunk) : Option Packet :=
  if accepts sock begin_ len ch then some (Packet.create index begin_ len ch) else none

/-- What accepting a request should mean, over the unbounded integers. -/
def Answered (sock : PacketSocket) (index begin_ len : UInt32) (ch : Chunk) : Prop :=
  ∀ pkt, sendChunk sock index begin_ len ch = some pkt →
    begin_.toNat + len.toNat ≤ ch.size.toNat ∧
    sock.pendingPieceUploadBytes.toNat + 13 + len.toNat ≤ maxPendingUploadBytes.toNat ∧
    pkt.size.toNat = 13 + len.toNat ∧
    ∀ w ∈ pkt.writes, WriteInside pkt.size.toNat w

theorem sendChunk_eq_some {sock : PacketSocket} {index begin_ len : UInt32} {ch : Chunk}
    {pkt : Packet} (h : sendChunk sock index begin_ len ch = some pkt) :
    accepts sock begin_ len ch ∧ pkt = Packet.create index begin_ len ch := by
  unfold sendChunk at h
  split at h
  · exact ⟨‹_›, (Option.some.inj h).symm⟩
  · cases h

/-- The checks as statements about the wrapped sums. -/
theorem accepts_iff {sock : PacketSocket} {begin_ len : UInt32} {ch : Chunk} :
    accepts sock begin_ len ch ↔
      begin_.toNat < ch.size.toNat ∧ (begin_.toNat + len.toNat) % 2 ^ 32 ≤ ch.size.toNat ∧
      sock.pendingPieceUploads.toNat < 512 ∧
      (sock.pendingPieceUploadBytes.toNat + 13 + len.toNat) % 2 ^ 32 ≤ 8395264 := by
  have hblocks : maxPendingUploadBlocks.toNat = 512 := rfl
  have hbytes : maxPendingUploadBytes.toNat = 8395264 := rfl
  have h13 : (13 : UInt32).toNat = 13 := rfl
  simp only [accepts, not_or, ge_iff_le, gt_iff_lt, not_le, not_lt, UInt32.lt_iff_toNat_lt,
    UInt32.le_iff_toNat_le, UInt32.toNat_add, hblocks, hbytes, h13, Nat.mod_add_mod]
  tauto

/-- The packet of an accepted request is as long as its content when `13 + len`
does not wrap. -/
theorem create_writesInside (index begin_ len : UInt32) (ch : Chunk)
    (h : 13 + len.toNat < 2 ^ 32) :
    (Packet.create index begin_ len ch).size.toNat = 13 + len.toNat ∧
      ∀ w ∈ (Packet.create index begin_ len ch).writes, WriteInside (13 + len.toNat) w := by
  have h13 : (13 : UInt32).toNat = 13 := rfl
  constructor
  · show (13 + len).toNat = _
    rw [UInt32.toNat_add, h13, Nat.mod_eq_of_lt h]
  · intro w hw
    simp only [Packet.create, Packet.new, List.cons_append, List.nil_append, List.mem_cons] at hw
    rcases hw with rfl | rfl | rfl | rfl | hw
    · simp [WriteInside]; omega
    · simp [WriteInside]; omega
    · simp [WriteInside]; omega
    · simp [WriteInside]
    · cases hr : ch.readPiece begin_ len with
      | none => rw [hr] at hw; simp at hw
      | some d =>
        rw [hr] at hw
        simp only [List.mem_singleton] at hw
        subst hw
        exact (Nat.add_le_add_left (ch.readPiece_length _ _ _ hr).le 13)

/-- A request whose sums reach `2 ^ 32` although their remainders, which is all
the 32-bit comparisons see, are within the limits. -/
def WrapsUnnoticed (sock : PacketSocket) (begin_ len : UInt32) (ch : Chunk) : Prop :=
  (2 ^ 32 ≤ begin_.toNat + len.toNat ∨
    2 ^ 32 ≤ sock.pendingPieceUploadBytes.toNat + 13 + len.toNat) ∧
  begin_.toNat < ch.size.toNat ∧ (begin_.toNat + len.toNat) % 2 ^ 32 ≤ ch.size.toNat ∧
  sock.pendingPieceUploads.toNat < 512 ∧
  (sock.pendingPieceUploadBytes.toNat + 13 + len.toNat) % 2 ^ 32 ≤ 8395264

/-- An accepted request is answered properly exactly when neither sum of the two
checks has reached `2 ^ 32`: a wrapped sum passes the comparison it should fail. -/
theorem sendChunk_answered_iff (sock : PacketSocket) (index begin_ len : UInt32) (ch : Chunk) :
    Answered sock index begin_ len ch ↔ ¬ WrapsUnnoticed sock begin_ len ch := by
  have hbytes : maxPendingUploadBytes.toNat = 8395264 := rfl
  have hsize : ch.size.toNat < 2 ^ 32 := ch.size.toNat_lt
  constructor
  · rintro h ⟨hwrap, hsmall⟩
    obtain ⟨hrange, hpend, -, -⟩ :=
      h (Packet.create index begin_ len ch) (if_pos (accepts_iff.2 hsmall))
    rw [hbytes] at hpend
    rcases hwrap with hwrap | hwrap
    · omega
    · omega
  · intro h pkt hpkt
    obtain ⟨hacc, rfl⟩ := sendChunk_eq_some hpkt
    have hnowrap : begin_.toNat + len.toNat < 2 ^ 32 ∧
        sock.pendingPieceUploadBytes.toNat + 13 + len.toNat < 2 ^ 32 := by
      by_contra hc
      exact h ⟨by omega, accepts_iff.1 hacc⟩
    obtain ⟨-, hrange, -, hpend⟩ := accepts_iff.1 hacc
    rw [Nat.mod_eq_of_lt hnowrap.1] at hrange
    rw [Nat.mod_eq_of_lt hnowrap.2] at hpend
    obtain ⟨hlen, hin⟩ := create_writesInside index begin_ len ch (by omega)
    refine ⟨hrange, by rw [hbytes]; exact hpend, hlen, ?_⟩
    rw [hlen]
    exact hin

/-- A chunk of one block of zeroes. -/
def zeroChunk : Chunk where
  size := 16384
  readPiece := fun _ len => some (List.replicate len.toNat 0)
  readPiece_length := by
    rintro off len d h
    rw [← Option.some.inj h, List.length_replicate]

/-- **The range check can be wrapped.**  On an idle socket a request for
`2 ^ 32 - 1` bytes at offset 1 passes both checks: `begin + len` and
`pending + 13 + len` come out as 0 and 12, and the array allocated for the packet
has 12 bytes. -/
theorem sendChunk_accepts_wrapped : ¬ Answered ⟨0, 0⟩ 0 1 4294967295 zeroChunk := by
  intro h
  have hrange := (h (Packet.create 0 1 4294967295 zeroChunk) (if_pos (by decide))).1
  revert hrange
  decide

end Peer
end KTorrent
