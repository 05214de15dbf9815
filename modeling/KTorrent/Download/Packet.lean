import KTorrent.Peer.SendChunk

/-!
# Packets

The model of `Packet`, a message for a peer on its way to the socket.

* `Packet` — the bytes, and how many of them were sent.
* `createType`, `createRequest`, `createPiece`, `isPiece`, `makeRejectOfPiece`,
  `send` — as the source computes them.
* `answers_createPiece`, `answers_createRequest` — a PIECE and a REJECT_REQUEST
  answer the request they were made for, and `isPiece` and `makeRejectOfPiece` read
  it back.
-/

namespace KTorrent

namespace PeerMessageType

/-- `CHOKE`. -/
def choke : UInt8 := 0

/-- `UNCHOKE`. -/
def unchoke : UInt8 := 1

/-- `PIECE`. -/
def piece : UInt8 := 7

/-- `REJECT_REQUEST`. -/
def rejectRequest : UInt8 := 16

end PeerMessageType

/-- `SocketDevice::send` for `offered` bytes: how many of them the device accepts when it has
`room` left, zero when it refuses.  The answer is an `int`. -/
def deviceAccepts (room offered : ℕ) : ℕ := min (min room (2 ^ 31 - 1)) offered

/-- `Packet`. -/
structure Packet where
  data : List UInt8
  type : UInt8
  written : ℕ
  /-- The size of an `Array` is a `Uint32`. -/
  length_lt : data.length < 2 ^ 32
  written_le : written ≤ data.length
  deriving DecidableEq

namespace Packet

open PeerMessageType

/-- `Packet::getDataLength`. -/
def getDataLength (p : Packet) : UInt32 := UInt32.ofNat p.data.length

/-- `Packet::sending`. -/
def sending (p : Packet) : Bool := decide (p.written > 0)

/-- `Packet::isSent`. -/
def isSent (p : Packet) : Bool := p.written == p.data.length

/-- What is left to send. -/
def unsent (p : Packet) : ℕ := p.data.length - p.written

/-- `Packet(size, type)`, with `body` written behind the header.  What does not fit into the array
is not there. -/
def make (size : UInt32) (type : UInt8) (body : List UInt8) : Packet where
  data := (writeUint32 (size - 4) ++ type :: body).take size.toNat
  type := type
  written := 0
  length_lt := lt_of_le_of_lt (List.length_take_le _ _) size.toNat_lt
  written_le := Nat.zero_le _

/-- `Packet::create(type)`. -/
def createType (type : UInt8) : Packet := make 5 type []

/-- `Packet::create(req, type)`. -/
def createRequest (r : Peer.Request) (type : UInt8) : Packet :=
  make 17 type (writeUint32 r.index ++ (writeUint32 r.offset ++ writeUint32 r.length))

/-- The bytes `Chunk::readPiece` leaves in an array of zeroes. -/
def pieceData (ch : Peer.Chunk) (begin_ len : UInt32) : List UInt8 :=
  (ch.readPiece begin_ len).getD (List.replicate len.toNat 0)

/-- `Packet::create(index, begin, len, ch)`. -/
def createPiece (index begin_ len : UInt32) (ch : Peer.Chunk) : Packet :=
  make (13 + len) piece (writeUint32 index ++ (writeUint32 begin_ ++ pieceData ch begin_ len))

/-- `Packet::isPiece`. -/
def isPiece (p : Packet) (req : Peer.Request) : Bool :=
  p.data[4]? == some piece && readUint32 p.data 5 == some req.index &&
    readUint32 p.data 9 == some req.offset && p.getDataLength - 13 == req.length

/-- `Packet::makeRejectOfPiece`. -/
def makeRejectOfPiece (p : Packet) : Option Packet :=
  if p.type ≠ piece then none
  else
    match readUint32 p.data 5, readUint32 p.data 9 with
    | some idx, some off => some (createRequest ⟨idx, off, p.getDataLength - 13⟩ rejectRequest)
    | _, _ => none

/-- How many bytes `send` offers: what is left, up to a limit that is not zero. -/
def offered (p : Packet) (maxToSend : ℕ) : ℕ :=
  if p.unsent > maxToSend ∧ maxToSend > 0 then maxToSend else p.unsent

/-- What `send` returns. -/
def accepted (p : Packet) (room maxToSend : ℕ) : ℕ :=
  if p.unsent = 0 then 0 else deviceAccepts room (p.offered maxToSend)

theorem accepted_le_unsent (p : Packet) (room maxToSend : ℕ) :
    p.accepted room maxToSend ≤ p.unsent := by
  unfold accepted deviceAccepts offered
  split
  · exact Nat.zero_le _
  · split
    · omega
    · exact Nat.min_le_right _ _

/-- `Packet::send`. -/
def send (p : Packet) (room maxToSend : ℕ) : Packet :=
  { p with
    written := p.written + p.accepted room maxToSend
    written_le := by
      have hle := p.accepted_le_unsent room maxToSend
      have hwritten := p.written_le
      unfold unsent at hle
      omega }

/-- The bytes the device got from `send`. -/
def handed (p : Packet) (room maxToSend : ℕ) : List UInt8 :=
  (p.data.drop p.written).take (p.accepted room maxToSend)

/-! ## Sending -/

variable (p : Packet) (room maxToSend : ℕ)

@[simp] theorem send_data : (p.send room maxToSend).data = p.data := rfl

@[simp] theorem send_type : (p.send room maxToSend).type = p.type := rfl

theorem length_handed : (p.handed room maxToSend).length = p.accepted room maxToSend := by
  have hle := p.accepted_le_unsent room maxToSend
  unfold handed unsent at *
  rw [List.length_take, List.length_drop]
  omega

/-- What was sent goes on where it stopped. -/
theorem take_send : p.data.take (p.send room maxToSend).written =
    p.data.take p.written ++ p.handed room maxToSend := List.take_add

theorem unsent_send : (p.send room maxToSend).unsent + p.accepted room maxToSend = p.unsent := by
  have hle := p.accepted_le_unsent room maxToSend
  unfold unsent at *
  change p.data.length - (p.written + _) + _ = _
  omega

/-- A limit is kept. -/
theorem accepted_le_limit (h : 0 < maxToSend) : p.accepted room maxToSend ≤ maxToSend := by
  unfold accepted deviceAccepts offered
  split
  · exact Nat.zero_le _
  · split
    · exact Nat.min_le_right _ _
    · omega

/-! ## Answers -/

/-- The request a packet answers. -/
def answers (p : Packet) : Option Peer.Request :=
  if p.type = piece then
    match readUint32 p.data 5, readUint32 p.data 9 with
    | some idx, some off => some ⟨idx, off, p.getDataLength - 13⟩
    | _, _ => none
  else if p.type = rejectRequest then
    match readUint32 p.data 5, readUint32 p.data 9, readUint32 p.data 13 with
    | some idx, some off, some len => some ⟨idx, off, len⟩
    | _, _, _ => none
  else none

/-- The three words of a request are read back. -/
theorem readUint32_make (type : UInt8) (size a b : UInt32) (rest : List UInt8)
    (hsize : 13 + rest.length = size.toNat) :
    let p := make size type (writeUint32 a ++ (writeUint32 b ++ rest))
    p.data = writeUint32 (size - 4) ++ type :: (writeUint32 a ++ (writeUint32 b ++ rest)) ∧
      readUint32 p.data 5 = some a ∧ readUint32 p.data 9 = some b := by
  have hdata : (make size type (writeUint32 a ++ (writeUint32 b ++ rest))).data =
      writeUint32 (size - 4) ++ type :: (writeUint32 a ++ (writeUint32 b ++ rest)) := by
    refine List.take_of_length_le ?_
    simp only [List.length_append, writeUint32_length, List.length_cons]
    omega
  refine ⟨hdata, ?_, ?_⟩
  · rw [hdata]
    have h5 := readUint32_writeUint32 (writeUint32 (size - 4) ++ [type]) (writeUint32 b ++ rest) a
    simpa using h5
  · rw [hdata]
    have h9 := readUint32_writeUint32 (writeUint32 (size - 4) ++ type :: writeUint32 a) rest b
    simpa using h9

theorem answers_createRequest (r : Peer.Request) :
    (createRequest r rejectRequest).answers = some r := by
  obtain ⟨hdata, h5, h9⟩ := readUint32_make rejectRequest 17 r.index r.offset (writeUint32 r.length) rfl
  have h13 : readUint32 (createRequest r rejectRequest).data 13 = some r.length := by
    have h := readUint32_writeUint32
      (writeUint32 (17 - 4) ++ rejectRequest :: (writeUint32 r.index ++ writeUint32 r.offset)) []
      r.length
    rw [createRequest, hdata]
    simpa using h
  have htype : (createRequest r rejectRequest).type = rejectRequest := rfl
  have hne : rejectRequest ≠ piece := by decide
  unfold answers
  rw [htype, if_neg hne, if_pos rfl, h13, createRequest, h5, h9]

theorem length_pieceData (ch : Peer.Chunk) (begin_ len : UInt32) :
    (pieceData ch begin_ len).length = len.toNat := by
  unfold pieceData
  cases h : ch.readPiece begin_ len with
  | none => exact List.length_replicate
  | some d => exact ch.readPiece_length _ _ _ h

section Piece

variable (index begin_ : UInt32) {len : UInt32} (ch : Peer.Chunk) (hlen : 13 + len.toNat < 2 ^ 32)
include hlen

theorem toNat_size : (13 + len).toNat = 13 + len.toNat := by
  rw [UInt32.toNat_add]
  exact Nat.mod_eq_of_lt hlen

/-- What is read back of a piece whose size does not wrap. -/
theorem createPiece_data : readUint32 (createPiece index begin_ len ch).data 5 = some index ∧
    readUint32 (createPiece index begin_ len ch).data 9 = some begin_ ∧
    (createPiece index begin_ len ch).data[4]? = some piece ∧
    (createPiece index begin_ len ch).getDataLength - 13 = len := by
  have hsize : 13 + (pieceData ch begin_ len).length = (13 + len).toNat := by
    rw [length_pieceData, toNat_size hlen]
  obtain ⟨hdata, h5, h9⟩ := readUint32_make piece (13 + len) index begin_ _ hsize
  refine ⟨h5, h9, ?_, ?_⟩
  · rw [createPiece, hdata]
    rfl
  · have hlength : (createPiece index begin_ len ch).data.length = (13 + len).toNat := by
      rw [createPiece, hdata]
      simp only [List.length_append, writeUint32_length, List.length_cons]
      omega
    rw [getDataLength, hlength, UInt32.ofNat_toNat]
    rw [UInt32.add_comm, UInt32.add_sub_cancel]

theorem answers_createPiece :
    (createPiece index begin_ len ch).answers = some ⟨index, begin_, len⟩ := by
  obtain ⟨h5, h9, -, hl⟩ := createPiece_data index begin_ ch hlen
  have htype : (createPiece index begin_ len ch).type = piece := rfl
  unfold answers
  rw [htype, if_pos rfl, h5, h9, hl]

theorem makeReject_createPiece : (createPiece index begin_ len ch).makeRejectOfPiece =
    some (createRequest ⟨index, begin_, len⟩ rejectRequest) := by
  obtain ⟨h5, h9, -, hl⟩ := createPiece_data index begin_ ch hlen
  have htype : (createPiece index begin_ len ch).type = piece := rfl
  unfold makeRejectOfPiece
  rw [htype, if_neg (not_not.mpr rfl), h5, h9, hl]

end Piece

end Packet

end KTorrent
