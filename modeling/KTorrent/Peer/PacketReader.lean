import KTorrent.Util.Constants
import KTorrent.Util.Endian

/-!
# Reading packets from a stream

The model of `peer/packetreader.cpp`.  Every packet comes behind its length, four
bytes long; the reader is given the stream in pieces and cuts it into packets,
which `update` hands over.
-/

namespace KTorrent

/-! ## The reader -/

/-- `IncomingPacket`. -/
structure IncomingPacket where
  /-- The size of the packet, `data.size()`. -/
  size : ℕ
  /-- The bytes of the packet that are there; `read` is their number. -/
  data : List UInt8
  deriving DecidableEq, Repr

/-- `PacketReader`. -/
structure PacketReader where
  /-- The largest packet that is accepted. -/
  maxPacketSize : ℕ
  /-- A length was too large. -/
  error : Bool
  /-- The packets, the last of which may be incomplete. -/
  packetQueue : List IncomingPacket
  /-- The bytes of a length that is incomplete; `len_received` is their number. -/
  len : List UInt8
  deriving DecidableEq, Repr

/-- A `Uint32` converted to `int`. -/
def toInt32 (n : ℕ) : ℤ := if n < 2 ^ 31 then n else (n : ℤ) - 2 ^ 32

namespace PacketReader

/-- The constructor. -/
def new (maxPacketSize : ℕ) : PacketReader := ⟨maxPacketSize, false, [], []⟩

/-- `ok`. -/
def ok (r : PacketReader) : Bool := !r.error

/-- `readPacket`: the number of bytes taken; `none` when there is no packet or the
bytes do not fit into it. -/
def readPacket (r : PacketReader) (buf : List UInt8) : Option (PacketReader × ℕ) :=
  if buf.length = 0 then some (r, 0)
  else
    match r.packetQueue.getLast? with
    | none => none
    | some pck =>
      let tr :=
        if u32 (pck.data.length + buf.length) ≥ pck.size then sub32 pck.size pck.data.length
        else buf.length
      if pck.data.length + tr > pck.size then none
      else
        some ({ r with
          packetQueue := r.packetQueue.dropLast ++ [{ pck with data := pck.data ++ buf.take tr }] }, tr)

/-- The end of `newPacket`: `packetLength` was read from a length that ends
`lenRead` bytes into `buf`. -/
def startPacket (r : PacketReader) (packetLength lenRead : ℕ) (buf : List UInt8) :
    Option (PacketReader × ℕ) :=
  if packetLength = 0 then some (r, lenRead)
  else if packetLength > r.maxPacketSize then some ({ r with error := true }, buf.length)
  else
    (readPacket { r with packetQueue := r.packetQueue ++ [⟨packetLength, []⟩] }
      (buf.drop lenRead)).map fun (r', n) => (r', lenRead + n)

/-- `newPacket`: the number of bytes taken; `none` when the bytes of a length do
not fit. -/
def newPacket (r : PacketReader) (buf : List UInt8) : Option (PacketReader × ℕ) :=
  if r.len.length > 0 then
    if toInt32 buf.length < 4 - (r.len.length : ℤ) then
      if r.len.length + buf.length > 4 then none
      else some ({ r with len := r.len ++ buf }, buf.length)
    else
      let lenRead := 4 - r.len.length
      (readUint32 (r.len ++ buf.take lenRead) 0).bind fun packetLength =>
        startPacket { r with len := [] } packetLength.toNat lenRead buf
  else if buf.length < 4 then some ({ r with len := buf }, buf.length)
  else (readUint32 buf 0).bind fun packetLength => startPacket r packetLength.toNat 4 buf

/-- The loop of `onDataReady`.  Every round takes a byte at least. -/
def newPackets : ℕ → PacketReader → List UInt8 → Option PacketReader
  | 0, r, _ => some r
  | fuel + 1, r, buf =>
    if buf.length = 0 ∨ r.error = true then some r
    else (newPacket r buf).bind fun (r', n) => newPackets fuel r' (buf.drop n)

/-- `onDataReady`. -/
def onDataReady (r : PacketReader) (buf : List UInt8) : Option PacketReader :=
  if r.error then some r
  else
    match r.packetQueue.getLast? with
    | none => newPackets buf.length r buf
    | some pck =>
      if pck.data.length < pck.size then
        (readPacket r buf).bind fun (r', n) => newPackets buf.length r' (buf.drop n)
      else newPackets buf.length r buf

/-- The loop of `update`: the packets that are handed over, and the queue. -/
def dequeuePackets : List IncomingPacket → List (List UInt8) × List IncomingPacket
  | [] => ([], [])
  | pck :: queue =>
    if pck.data.length = pck.size then
      let (ps, queue') := dequeuePackets queue
      (pck.data :: ps, queue')
    else ([], pck :: queue)

/-- `update`: the packets handed to `PeerInterface::handlePacket`. -/
def update (r : PacketReader) : List (List UInt8) × PacketReader :=
  if r.error then ([], r)
  else
    let (ps, queue) := dequeuePackets r.packetQueue
    (ps, { r with packetQueue := queue })

end PacketReader

end KTorrent
