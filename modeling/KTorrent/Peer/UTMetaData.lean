import KTorrent.Bcodec.BDecoder
import KTorrent.Magnet.MetadataDownload

/-!
# The extension for metadata

`UTMetaData` answers requests for pieces of the metadata when the torrent is loaded, and hands
the answers it gets to the download (`peer/utmetadata.cpp`).  A packet has two bytes in front,
the type of the message and the id of the extension; a dictionary follows, and after it the bytes
of a piece.

* `UTMetaData.handlePacket` — what is sent for a packet, and the metadata when it is reported; no
  result when bytes outside the metadata would be read or written.
-/

namespace KTorrent

/-- A value of the source stored in an `int`. -/
def wrapInt32 (z : ℤ) : ℤ := z.bmod (2 ^ 32)

/-- An `int` converted to `Uint32`. -/
def intToUint32 (z : ℤ) : ℕ := (z % 2 ^ 32).toNat

/-- `UTMetaData`.  `tor` is the metadata of the torrent, if it is loaded. -/
structure UTMetaData where
  id : UInt8
  tor : Option (List UInt8)
  download : Option MetadataDownload

/-- What handling a packet does: the new state, the packets that are sent and the metadata that
are reported. -/
structure Handled where
  ext : UTMetaData
  sent : List (List UInt8)
  reported : Option (List UInt8)

namespace UTMetaData

/-- `PeerProtocolExtension::sendPacket`: the packet, as the other side gets it. -/
def sendPacket (x : UTMetaData) (data : List UInt8) : List UInt8 := 20 :: x.id :: data

/-- Nothing happens. -/
def ignored (x : UTMetaData) : Option Handled := some ⟨x, [], none⟩

theorem msgTypeKey_short : (ascii "msg_type").length < 2 ^ 31 := by decide

theorem pieceKey_short : (ascii "piece").length < 2 ^ 31 := by decide

/-- `UTMetaData::sendReject`. -/
def sendReject (x : UTMetaData) (piece : ℤ) : List UInt8 :=
  x.sendPacket (BTree.dict
    [(bkey "msg_type" msgTypeKey_short, writtenUint32 2),
      (bkey "piece" pieceKey_short, writtenUint32 (intToUint32 piece))]).emitted

/-- `UTMetaData::sendData`. -/
def sendData (x : UTMetaData) (piece : ℤ) (total_size : ℤ) (data : List UInt8) : List UInt8 :=
  x.sendPacket ((BTree.dict
    [(bkey "msg_type" msgTypeKey_short, writtenUint32 1),
      (bkey "piece" pieceKey_short, writtenUint32 (intToUint32 piece)),
      (bkey "total_size", writtenUint32 (intToUint32 total_size))]).emitted ++ data)

/-- `md.sliced(off, len)`, which must lie inside the data. -/
def slicedView (md : List UInt8) (off len : ℤ) : Option (List UInt8) :=
  if 0 ≤ off ∧ 0 ≤ len ∧ off + len ≤ md.length then some ((md.drop off.toNat).take len.toNat)
  else none

/-- `UTMetaData::request` for a piece. -/
def request (x : UTMetaData) (piece : ℤ) : Option Handled :=
  match x.tor with
  | none => some ⟨x, [x.sendReject piece], none⟩
  | some md =>
    let size : ℤ := md.length
    let pieceSize : ℤ := metadataPieceSize
    let num_pieces := wrapInt32 (size / pieceSize + if size % pieceSize = 0 then 0 else 1)
    if piece < 0 ∨ piece ≥ num_pieces then some ⟨x, [x.sendReject piece], none⟩
    else
      let off := wrapInt32 (piece * pieceSize)
      let last_len := wrapInt32 (if size % pieceSize = 0 then pieceSize else size % pieceSize)
      let len := if piece = num_pieces - 1 then last_len else pieceSize
      (slicedView md off len).map fun data => ⟨x, [x.sendData piece (wrapInt32 size) data], none⟩

/-- `UTMetaData::data` for a piece. -/
def data (mem : ℕ → UInt8) (x : UTMetaData) (piece : ℤ) (piece_data : List UInt8) :
    Option Handled :=
  match x.download with
  | none => x.ignored
  | some d =>
    (d.data mem (intToUint32 piece) piece_data).map fun (d, all, requests) =>
      ⟨{ x with download := some d }, requests.map x.sendPacket,
        if all then some d.metadata else none⟩

/-- `UTMetaData::reject` for a piece. -/
def reject (x : UTMetaData) (piece : ℤ) : Option Handled :=
  match x.download with
  | none => x.ignored
  | some d => some ⟨x, (d.reject (intToUint32 piece)).map x.sendPacket, none⟩

/-- `UTMetaData::handlePacket`.  Whatever is thrown on the way is caught, and nothing has been done
by then. -/
def handlePacket (mem : ℕ → UInt8) (x : UTMetaData) (packet : List UInt8) : Option Handled :=
  if packet.length ≤ 2 then x.ignored
  else
    let tmp := packet.drop 2
    match BDecoder.decode tmp tmp.length 0 with
    | .ok (some (.dict dict _), pos) =>
      match BDictNode.getInt dict (ascii "msg_type"), BDictNode.getInt dict (ascii "piece") with
      | .ok 0, .ok piece => x.request piece
      | .ok 1, .ok piece => x.data mem piece (tmp.drop pos)
      | .ok 2, .ok piece => x.reject piece
      | _, _ => x.ignored
    | _ => x.ignored

/-- `UTMetaData::setReportedMetadataSize`, and the request of the download that it makes. -/
def setReportedMetadataSize (mem : ℕ → UInt8) (x : UTMetaData) (metadata_size : ℕ) :
    UTMetaData × List (List UInt8) :=
  if metadata_size > 0 ∧ x.tor = none ∧ x.download.isNone then
    let made := MetadataDownload.new mem metadata_size
    ({ x with download := some made.1 }, made.2.map x.sendPacket)
  else (x, [])

end UTMetaData

end KTorrent
