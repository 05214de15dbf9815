import KTorrent.Bcodec.BEncoder
import KTorrent.Bcodec.RoundTrip
import KTorrent.Lib.Buffer
import KTorrent.Util.BitSetCount
import KTorrent.Util.Constants

/-!
# Downloading metadata

`MetadataDownload` collects the pieces of the metadata of a torrent and asks for those that are
missing (`magnet/metadatadownload.cpp`).  A piece has 16384 bytes, the last one what is left.

* `MetadataDownload.data` — a piece has arrived; no result when it would be written outside the
  buffer.
* `MetadataDownload.downloadNext` — the requests for what is missing.
-/

namespace KTorrent

/-- `METADATA_PIECE_SIZE`. -/
def metadataPieceSize : ℕ := 16 * 1024

/-- A `Uint32` as the encoder writes it. -/
def writtenUint32 (n : ℕ) : BTree := .int (Fin.ofNat (2 ^ 63) (u32 n))

/-- `QByteArray::resize`; the bytes that it adds are those of the memory `mem`. -/
def resize (mem : ℕ → UInt8) (l : List UInt8) (n : ℕ) : List UInt8 :=
  (l ++ (List.range' l.length (n - l.length)).map mem).take n

/-- `MetadataDownload`, with the pieces that it has accepted. -/
structure MetadataDownload where
  total_size : ℕ
  pieces : BitSet
  metadata : List UInt8
  accepted : List (ℕ × List UInt8)

namespace MetadataDownload

/-- `MetadataDownload::download`: the data of the request that is sent. -/
def download (piece : ℕ) : List UInt8 :=
  (BTree.dict [(bkey "msg_type", writtenUint32 0), (bkey "piece", writtenUint32 piece)]).emitted

/-- `MetadataDownload::downloadNext`. -/
def downloadNext (d : MetadataDownload) : List (List UInt8) :=
  ((List.range d.pieces.numBits.toNat).filter fun i => !d.pieces.get i).map download

/-- `MetadataDownload::MetadataDownload`, and the request that it sends. -/
def new (mem : ℕ → UInt8) (size : ℕ) : MetadataDownload × List (List UInt8) :=
  let num_pieces := size / metadataPieceSize
  let num_pieces := if size % metadataPieceSize > 0 then num_pieces + 1 else num_pieces
  ({ total_size := size
     pieces := BitSet.new (UInt32.ofNat num_pieces)
     metadata := resize mem [] size
     accepted := [] }, [download 0])

/-- `MetadataDownload::reject`. -/
def reject (d : MetadataDownload) (_piece : ℕ) : List (List UInt8) := d.downloadNext

/-- `MetadataDownload::data`: whether all the data have been received, and the requests that are
sent. -/
def data (mem : ℕ → UInt8) (d : MetadataDownload) (piece : ℕ) (piece_data : List UInt8) :
    Option (MetadataDownload × Bool × List (List UInt8)) :=
  let numBits := d.pieces.numBits.toNat
  if piece ≥ numBits then some (d, false, d.downloadNext)
  else
    let size :=
      if piece = sub32 numBits 1 ∧ d.total_size % metadataPieceSize > 0 then
        d.total_size % metadataPieceSize
      else metadataPieceSize
    if size ≠ piece_data.length then some (d, false, d.downloadNext)
    else
      let off := u32 (piece * metadataPieceSize)
      let metadata :=
        if d.metadata.length < u32 (off + size) then resize mem d.metadata (u32 (off + size))
        else d.metadata
      if off + size ≤ metadata.length then
        let d :=
          { d with
            metadata := Buffer.overwrite metadata off piece_data
            pieces := d.pieces.set piece true
            accepted := d.accepted ++ [(piece, piece_data)] }
        some (d, d.pieces.allOn, if d.pieces.allOn then [] else d.downloadNext)
      else none

end MetadataDownload

end KTorrent
