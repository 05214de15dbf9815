import KTorrent.Lib.Run
import KTorrent.Util.CircularBuffer
import KTorrent.Util.Endian
import KTorrent.Utp.PacketParser

/-!
# Packets in memory: `PacketBuffer`

A packet is built in an array of 1500 bytes (`utp/packetbuffer.cpp`).  The payload is put at its
end, and every time the packet is sent a header and the room for an extension are put in front of
it; the extension may be another one each time.

* `PacketHeader` — the header, its bytes and how they are read.
* `PacketBuffer` — the array with the three pointers; `fillData`, `fillFrom`, `setHeader` as in
  the source; no result where bytes outside the array are written.
* `HeaderRight` — what a call of `setHeader` owes; `RoomAgrees` — when it does: the guard subtracts
  the length of the extension, where it should be added.
* `allSteps_headerRight_iff` — for every payload and every sequence of calls.
-/

namespace KTorrent

open Buffer Runs

/-! ## Headers -/

/-- `Header`; the version and the type are fields of 4 bits. -/
structure PacketHeader where
  version : Fin 16
  type : Fin 16
  extension : UInt8
  connection_id : UInt16
  timestamp_microseconds : UInt32
  timestamp_difference_microseconds : UInt32
  wnd_size : UInt32
  seq_nr : UInt16
  ack_nr : UInt16
deriving DecidableEq

namespace PacketHeader

/-- The first byte of a header. -/
def packed (type version : Fin 16) : UInt8 :=
  (UInt8.ofNat type <<< 4 &&& 0xF0) ||| (UInt8.ofNat version &&& 0x0F)

/-- `Header::write`. -/
def write (h : PacketHeader) : List UInt8 :=
  [packed h.type h.version, h.extension] ++ (writeUint16 h.connection_id ++
    (writeUint32 h.timestamp_microseconds ++ (writeUint32 h.timestamp_difference_microseconds ++
      (writeUint32 h.wnd_size ++ (writeUint16 h.seq_nr ++ writeUint16 h.ack_nr)))))

/-- `Header::read`. -/
def read (data : List UInt8) : Option PacketHeader := do
  let first : UInt8 ← data[0]?
  let extension : UInt8 ← data[1]?
  let connection_id ← readUint16 data 2
  let timestamp_microseconds ← readUint32 data 4
  let timestamp_difference_microseconds ← readUint32 data 8
  let wnd_size ← readUint32 data 12
  let seq_nr ← readUint16 data 16
  let ack_nr ← readUint16 data 18
  return {
    version := Fin.ofNat 16 (first &&& 0x0F).toNat
    type := Fin.ofNat 16 ((first &&& 0xF0) >>> 4).toNat
    extension, connection_id, timestamp_microseconds, timestamp_difference_microseconds,
    wnd_size, seq_nr, ack_nr }

end PacketHeader

/-! ## The array -/

/-- `PacketBuffer::MAX_SIZE`. -/
def maxBufferSize : ℕ := 1500

/-- `PacketBuffer`; the pointers are positions in the array. -/
structure PacketBuffer where
  bytes : List UInt8
  header : Option ℕ
  extension : Option ℕ
  payload : Option ℕ
  size : ℕ
  length_bytes : bytes.length = maxBufferSize

namespace PacketBuffer

/-- `PacketBuffer()`, with what the array happens to hold. -/
def new (mem : ℕ → UInt8) : PacketBuffer where
  bytes := (List.range maxBufferSize).map mem
  header := none
  extension := none
  payload := none
  size := 0
  length_bytes := by simp

/-- `data()` and as many bytes as `bufferSize()` says. -/
def contents (b : PacketBuffer) : List UInt8 := (b.bytes.drop (b.header.getD 0)).take b.size

/-- `PacketBuffer::headRoom`. -/
def headRoom (b : PacketBuffer) : ℕ := b.payload.getD maxBufferSize

/-- The bytes of the payload, which goes up to the end of the array. -/
def payloadBytes (b : PacketBuffer) : List UInt8 := b.bytes.drop b.headRoom

/-- Bytes stored in the array, where they are inside. -/
def store (b : PacketBuffer) (off : ℕ) (src : List UInt8) : Option PacketBuffer :=
  if h : off + src.length ≤ b.bytes.length then
    some { b with
      bytes := overwrite b.bytes off src
      length_bytes := by rw [length_overwrite h, b.length_bytes] }
  else none

/-- The pointers after a payload of `n` bytes has been put at the end. -/
def anchor (b : PacketBuffer) (n : ℕ) : PacketBuffer :=
  { b with
    header := some (maxBufferSize - n)
    extension := some (maxBufferSize - n)
    payload := some (maxBufferSize - n)
    size := n }

/-- `PacketBuffer::fillData` from a buffer. -/
def fillData (b : PacketBuffer) (data : List UInt8) : Option PacketBuffer :=
  let data := data.take maxBufferSize
  (b.store (maxBufferSize - data.length) data).map fun b => b.anchor data.length

/-- `PacketBuffer::fillData` from a circular buffer. -/
def fillFrom (b : PacketBuffer) (cbuf : CircularBuffer) (to_read : UInt32) :
    Option (PacketBuffer × CircularBuffer) := do
  let to_read := if to_read.toNat > maxBufferSize - headerSize then
    UInt32.ofNat (maxBufferSize - headerSize) else to_read
  let ((_, out), cbuf) ← cbuf.read to_read
  let b ← b.store (maxBufferSize - to_read.toNat) out
  return (b.anchor to_read.toNat, cbuf)

/-- `PacketBuffer::setHeader`. -/
def setHeader (b : PacketBuffer) (h : PacketHeader) (extension_length : UInt32) :
    Option (Bool × PacketBuffer) :=
  if (UInt32.ofNat headerSize - extension_length).toNat > b.headRoom then some (false, b)
  else
    match b.payload with
    | some payload =>
      -- a pointer in front of the array is not a position in it
      if headerSize + extension_length.toNat ≤ payload then
        let header := payload - headerSize - extension_length.toNat
        (b.store header h.write).map fun b =>
          (true, { b with
            header := some header
            extension := some (header + headerSize)
            size := maxBufferSize - header })
      else none
    | none =>
      (b.store 0 h.write).map fun b =>
        (true, { b with
          header := some 0
          extension := some headerSize
          size := (UInt32.ofNat headerSize + extension_length).toNat })

/-- What the caller writes through `extensionData()`. -/
def fillExtension (b : PacketBuffer) (ext : List UInt8) : Option PacketBuffer :=
  b.extension.bind fun off => b.store off ext

end PacketBuffer

/-! ## The law -/

/-- Extensions behind one another, the first with the id `id`, and nothing after the last. -/
inductive Extensions : UInt8 → List UInt8 → Prop
  | nil : Extensions 0 []
  | cons {id next len : UInt8} {body rest : List UInt8} (hid : id ≠ 0)
      (hbody : body.length = len.toNat) (hrest : Extensions next rest) :
      Extensions id (next :: len :: (body ++ rest))

/-- The buffer holds the header, an extension of `e` bytes and the payload, and the parser gets
them out again. -/
structure Framed (h : PacketHeader) (e : ℕ) (payload : List UInt8) (b : PacketBuffer) : Prop where
  inside : ∃ start, b.header = some start ∧ start + b.size = maxBufferSize
  contents : ∃ ext, ext.length = e ∧ b.contents = h.write ++ (ext ++ payload)
  parsed : ∀ ext, ext.length = e → Extensions h.extension ext →
    ∃ b', b.fillExtension ext = some b' ∧ PacketHeader.read b'.contents = some h ∧
      ∃ sack, PacketParser.parse b'.contents
        = .parsed (headerSize + e) payload.length sack ∧
          b'.contents.drop (headerSize + e) = payload

/-- What a call of `setHeader` owes: it succeeds when there is room, and writes nothing when it
does not. -/
def HeaderRight (b : PacketBuffer) (h : PacketHeader) (e : UInt32) : Prop :=
  ∃ ok b', b.setHeader h e = some (ok, b') ∧
    (ok = true ↔ headerSize + e.toNat ≤ b.headRoom) ∧
    (ok = true → Framed h e.toNat b.payloadBytes b') ∧ (ok = false → b' = b)

/-- A packet is sent: a header, the length of its extension, and the extension. -/
structure Sending where
  h : PacketHeader
  e : UInt32
  ext : List UInt8
  length_ext : ext.length = e.toNat

namespace PacketBuffer

/-- `setHeader`, and when it succeeds the extension is filled in. -/
def send (b : Option PacketBuffer) (s : Sending) : Option PacketBuffer :=
  b.bind fun b =>
    match b.setHeader s.h s.e with
    | some (true, b) => b.fillExtension s.ext
    | some (false, b) => some b
    | none => none

end PacketBuffer

/-- What a sending owes, in a run. -/
def SendingRight : Option PacketBuffer → Sending → Prop
  | some b, s => HeaderRight b s.h s.e
  | none, _ => False

/-- The condition on the room in front of the payload and the length of the extension: nothing is
to be put in, or the difference of both lengths and their sum are on the same side of the room. -/
def RoomAgrees (room e : ℕ) : Prop :=
  e = 0 ∨ (e ≤ headerSize ∧ (room < headerSize - e ∨ headerSize + e ≤ room)) ∨
    (headerSize < e ∧ room < headerSize + e ∧ room + e < 2 ^ 32 + headerSize)

/-! ## Reading what was written -/

namespace PacketHeader

@[simp] theorem length_write (h : PacketHeader) : h.write.length = headerSize := rfl

/-- **A header is read as it was written**, whatever comes behind it. -/
theorem read_write (h : PacketHeader) (rest : List UInt8) : read (h.write ++ rest) = some h := by
  have hfirst : ∀ t v : Fin 16, Fin.ofNat 16 (packed t v &&& 0x0F).toNat = v ∧
      Fin.ofNat 16 ((packed t v &&& 0xF0) >>> 4).toNat = t := by decide
  have hid : readUint16 (h.write ++ rest) 2 = some h.connection_id :=
    readUint16_writeUint16 [_, _] _ _
  have htime : readUint32 (h.write ++ rest) 4 = some h.timestamp_microseconds :=
    readUint32_writeUint32 [_, _, _, _] _ _
  have hdiff : readUint32 (h.write ++ rest) 8 = some h.timestamp_difference_microseconds :=
    readUint32_writeUint32 [_, _, _, _, _, _, _, _] _ _
  have hwnd : readUint32 (h.write ++ rest) 12 = some h.wnd_size :=
    readUint32_writeUint32 [_, _, _, _, _, _, _, _, _, _, _, _] _ _
  have hseq : readUint16 (h.write ++ rest) 16 = some h.seq_nr :=
    readUint16_writeUint16 [_, _, _, _, _, _, _, _, _, _, _, _, _, _, _, _] _ _
  have hack : readUint16 (h.write ++ rest) 18 = some h.ack_nr :=
    readUint16_writeUint16 [_, _, _, _, _, _, _, _, _, _, _, _, _, _, _, _, _, _] _ _
  have hzero : (h.write ++ rest)[0]? = some (packed h.type h.version) := rfl
  have hone : (h.write ++ rest)[1]? = some h.extension := rfl
  rw [read, hzero, hone, hid, htime, hdiff, hwnd, hseq, hack]
  simp only [Option.bind_eq_bind, Option.bind_some, Option.pure_def]
  rw [(hfirst h.type h.version).1, (hfirst h.type h.version).2]

end PacketHeader

namespace PacketParser

/-- **Well-formed extensions are skipped**: what is behind them are the data. -/
theorem extensions_of_chain {id : UInt8} {ext : List UInt8} (h : Extensions id ext)
    (pre post : List UInt8) (sack : Option SackField) :
    ∃ sack', extensions (pre ++ (ext ++ post)) pre.length id sack
      = .parsed (pre.length + ext.length)
          (sub32 (pre ++ (ext ++ post)).length (pre.length + ext.length)) sack' := by
  induction h generalizing pre sack with
  | nil =>
    rw [extensions, if_neg fun hgo => hgo.2 rfl]
    exact ⟨sack, rfl⟩
  | @cons id next len body rest hid hbody hrest ih =>
    have hpacket : pre ++ (next :: len :: (body ++ rest) ++ post)
        = (pre ++ next :: len :: body) ++ (rest ++ post) := by simp
    have hlen : (pre ++ next :: len :: body).length = pre.length + 2 + len.toNat := by
      simp [hbody]
      omega
    have hnext : (pre ++ (next :: len :: (body ++ rest) ++ post))[pre.length]? = some next := by
      simp
    have hlength : (pre ++ (next :: len :: (body ++ rest) ++ post))[pre.length + 1]?
        = some len := by simp
    obtain ⟨sack', hrun⟩ := ih (pre ++ next :: len :: body)
      (if id = selectiveAckId then some ⟨next, len, pre.length + 2⟩ else sack)
    rw [extensions, if_pos ⟨by simp, hid⟩, hnext, hlength]
    dsimp only
    rw [if_neg (by simp [hbody]; omega), hpacket, ← hlen, hrun]
    refine ⟨sack', ?_⟩
    have htotal : (pre ++ next :: len :: body).length + rest.length
        = pre.length + (next :: len :: (body ++ rest)).length := by
      simp
      omega
    rw [htotal]

end PacketParser

/-! ## The array -/

namespace PacketBuffer

variable {b : PacketBuffer} {h : PacketHeader} {e : UInt32} {off p : ℕ} {src payload : List UInt8}

theorem store_eq (hin : off + src.length ≤ maxBufferSize) :
    ∃ b', b.store off src = some b' ∧ b'.bytes = overwrite b.bytes off src ∧
      b'.payload = b.payload ∧ b'.header = b.header ∧ b'.size = b.size := by
  have hlen : off + src.length ≤ b.bytes.length := b.length_bytes ▸ hin
  exact ⟨_, dif_pos hlen, rfl, rfl, rfl, rfl⟩

/-- The payload is at the end of the array. -/
structure Placed (p : ℕ) (payload : List UInt8) (b : PacketBuffer) : Prop where
  anchored : b.payload = some p
  le : p ≤ maxBufferSize
  holds : b.bytes.drop p = payload

theorem Placed.headRoom (hb : Placed p payload b) : b.headRoom = p := by
  rw [PacketBuffer.headRoom, hb.anchored, Option.getD_some]

theorem Placed.payloadBytes (hb : Placed p payload b) : b.payloadBytes = payload := by
  rw [PacketBuffer.payloadBytes, hb.headRoom, hb.holds]

/-- **A payload is placed**, all of it that fits. -/
theorem fillData_placed (b : PacketBuffer) (data : List UInt8) :
    ∃ b', b.fillData data = some b' ∧
      Placed (maxBufferSize - (data.take maxBufferSize).length) (data.take maxBufferSize) b' := by
  have hle : (data.take maxBufferSize).length ≤ maxBufferSize := List.length_take_le _ _
  obtain ⟨b', hb', hbytes, -⟩ := @store_eq b
    (maxBufferSize - (data.take maxBufferSize).length) (data.take maxBufferSize) (by omega)
  refine ⟨_, by rw [fillData, hb', Option.map_some], rfl, Nat.sub_le _ _, ?_⟩
  have hlen := b.length_bytes
  show b'.bytes.drop _ = _
  rw [hbytes, drop_overwrite (by omega), List.drop_eq_nil_of_le (by omega), List.append_nil]

/-- The other way of placing one. -/
theorem fillFrom_placed {cbuf cbuf' : CircularBuffer} {to_read : UInt32} {b' : PacketBuffer}
    (hfill : b.fillFrom cbuf to_read = some (b', cbuf')) :
    ∃ p, Placed p b'.payloadBytes b' := by
  rw [fillFrom] at hfill
  simp only [Option.bind_eq_bind, Option.bind_eq_some_iff, Option.pure_def, Option.some.injEq,
    Prod.mk.injEq] at hfill
  obtain ⟨-, -, b₁, -, rfl, -⟩ := hfill
  exact ⟨_, rfl, Nat.sub_le _ _, rfl⟩

/-! ## One call -/

theorem guard_toNat (e : UInt32) : (UInt32.ofNat headerSize - e).toNat =
    if e.toNat ≤ headerSize then headerSize - e.toNat else 2 ^ 32 + headerSize - e.toNat := by
  have hlt := e.toNat_lt
  have hsize : (UInt32.ofNat headerSize).toNat = headerSize := rfl
  rw [UInt32.toNat_sub, hsize, headerSize]
  split <;> omega

/-- Where there is room, the header is put in front of the payload. -/
theorem setHeader_eq (hb : Placed p payload b)
    (hguard : ¬ (UInt32.ofNat headerSize - e).toNat > p) (hroom : headerSize + e.toNat ≤ p) :
    ∃ b', b.setHeader h e = some (true, b') ∧
      b'.bytes = overwrite b.bytes (p - headerSize - e.toNat) h.write ∧
      b'.header = some (p - headerSize - e.toNat) ∧
      b'.extension = some (p - headerSize - e.toNat + headerSize) ∧
      b'.size = maxBufferSize - (p - headerSize - e.toNat) ∧ b'.payload = some p := by
  have hle := hb.le
  obtain ⟨b₁, hb₁, hbytes, hpayload, -⟩ := @store_eq b
    (p - headerSize - e.toNat) h.write (by rw [PacketHeader.length_write]; omega)
  refine ⟨{ b₁ with
    header := some (p - headerSize - e.toNat)
    extension := some (p - headerSize - e.toNat + headerSize)
    size := maxBufferSize - (p - headerSize - e.toNat) }, ?_, hbytes, rfl, rfl, rfl,
    hpayload.trans hb.anchored⟩
  rw [setHeader, hb.headRoom, if_neg hguard, hb.anchored]
  dsimp only
  rw [if_pos hroom, hb₁, Option.map_some]

/-- The rest of the array as it is seen from the header. -/
theorem drop_start (hb : Placed p payload b) {start n : ℕ} (hp : start + headerSize + n = p) :
    (overwrite b.bytes start h.write).drop start
      = h.write ++ ((b.bytes.drop (start + headerSize)).take n ++ payload) := by
  have hlen := b.length_bytes
  have hle := hb.le
  have hrest := List.take_append_drop n (b.bytes.drop (start + headerSize))
  rw [List.drop_drop, hp, hb.holds] at hrest
  rw [drop_overwrite (by omega), PacketHeader.length_write, hrest]

theorem contents_eq {start : ℕ} (hheader : b.header = some start)
    (hsize : b.size = maxBufferSize - start) : b.contents = b.bytes.drop start := by
  have hlen := b.length_bytes
  rw [contents, hheader, Option.getD_some, hsize,
    List.take_of_length_le (by rw [List.length_drop]; omega)]

/-- The extension is between the header and the payload. -/
theorem fillExtension_eq {start : ℕ} {ext old : List UInt8} (hheader : b.header = some start)
    (hext : b.extension = some (start + headerSize)) (hsize : b.size = maxBufferSize - start)
    (hdrop : b.bytes.drop start = h.write ++ (old ++ payload)) (hlen : ext.length = old.length)
    (hin : start + headerSize + old.length ≤ maxBufferSize) :
    ∃ b', b.fillExtension ext = some b' ∧ b'.contents = h.write ++ (ext ++ payload) ∧
      b'.bytes = overwrite b.bytes (start + headerSize) ext ∧ b'.payload = b.payload := by
  have hbytes := b.length_bytes
  obtain ⟨b', hb', hstored, hpayload, hheader', hsize'⟩ := @store_eq b
    (start + headerSize) ext (by omega)
  refine ⟨b', by rw [fillExtension, hext, Option.bind_some, hb'], ?_, hstored, hpayload⟩
  rw [contents_eq (hheader'.trans hheader) (hsize'.trans hsize), hstored,
    drop_overwrite_add (by omega), hdrop, overwrite,
    List.take_left' (PacketHeader.length_write h), hlen, ← PacketHeader.length_write h,
    List.drop_length_add_append, List.drop_left, List.append_assoc]

/-- What the parser makes of a packet with well-formed extensions. -/
theorem parse_framed {ext : List UInt8} (hext : Extensions h.extension ext)
    (hlen : headerSize + ext.length + payload.length ≤ maxBufferSize) :
    ∃ sack, PacketParser.parse (h.write ++ (ext ++ payload))
      = .parsed (headerSize + ext.length) payload.length sack := by
  have htotal : (h.write ++ (ext ++ payload)).length
      = headerSize + ext.length + payload.length := by
    rw [List.length_append, List.length_append, PacketHeader.length_write, Nat.add_assoc]
  have hid : (h.write ++ (ext ++ payload)).getD 1 0 = h.extension := rfl
  obtain ⟨sack, hparse⟩ := PacketParser.extensions_of_chain hext h.write payload none
  have hmax : maxBufferSize < 2 ^ 32 := by decide
  rw [PacketHeader.length_write, htotal, sub32_of_le (by omega) (by omega),
    Nat.add_sub_cancel_left] at hparse
  exact ⟨sack, by rw [PacketParser.parse, if_neg (by omega), hid, hparse]⟩

/-- **The packet is framed**, and parsed as it was meant. -/
theorem setHeader_framed (hb : Placed p payload b)
    (hguard : ¬ (UInt32.ofNat headerSize - e).toNat > p) (hroom : headerSize + e.toNat ≤ p) :
    ∃ b', b.setHeader h e = some (true, b') ∧ Framed h e.toNat payload b' ∧
      ∀ ext, ext.length = e.toNat → ∃ b'', b'.fillExtension ext = some b'' ∧
        Placed p payload b'' := by
  obtain ⟨b', hset, hbytes, hheader, hextension, hsize, hpayload⟩ := setHeader_eq hb hguard hroom
  obtain ⟨start, hstart⟩ : ∃ start, start = p - headerSize - e.toNat := ⟨_, rfl⟩
  have hp : start + headerSize + e.toNat = p := by omega
  have hle := hb.le
  have hlen := b.length_bytes
  rw [← hstart] at hbytes hheader hextension hsize
  have hdrop := drop_start (h := h) hb hp
  obtain ⟨old, hold⟩ : ∃ old, old = (b.bytes.drop (start + headerSize)).take e.toNat := ⟨_, rfl⟩
  have holdlen : old.length = e.toNat := by
    rw [hold, List.length_take, List.length_drop]
    omega
  rw [← hold, ← hbytes] at hdrop
  have hplen : payload.length = maxBufferSize - p := by
    rw [← hb.holds, List.length_drop, hlen]
  have hfill : ∀ ext, ext.length = e.toNat → ∃ b'', b'.fillExtension ext = some b'' ∧
      b''.contents = h.write ++ (ext ++ payload) ∧
      b''.bytes = overwrite b'.bytes (start + headerSize) ext ∧ b''.payload = b'.payload :=
    fun ext hextlen => fillExtension_eq hheader hextension hsize hdrop
      (hextlen.trans holdlen.symm) (by omega)
  refine ⟨b', hset, ⟨⟨start, hheader, by omega⟩, ⟨old, holdlen, ?_⟩, ?_⟩, ?_⟩
  · rw [contents_eq hheader hsize, hdrop]
  · intro ext hextlen hchain
    obtain ⟨b'', hb'', hcontents, -⟩ := hfill ext hextlen
    obtain ⟨sack, hparse⟩ := @parse_framed h payload ext hchain (by omega)
    rw [hextlen, ← hcontents] at hparse
    refine ⟨b'', hb'', by rw [hcontents, PacketHeader.read_write], sack, hparse, ?_⟩
    rw [hcontents, ← hextlen, ← PacketHeader.length_write h, List.drop_length_add_append,
      List.drop_left]
  · intro ext hextlen
    obtain ⟨b'', hb'', -, hstored, hpayload'⟩ := hfill ext hextlen
    have hlen' := b'.length_bytes
    refine ⟨b'', hb'', hpayload'.trans hpayload, hle, ?_⟩
    rw [hstored, drop_overwrite_of_le (by omega) (by omega), hbytes,
      drop_overwrite_of_le (by rw [PacketHeader.length_write]; omega)
        (by rw [PacketHeader.length_write]; omega), hb.holds]

/-- **One call does what it owes exactly under the condition.** -/
theorem headerRight_iff (hb : Placed p payload b) (h : PacketHeader) (e : UInt32) :
    HeaderRight b h e ↔ RoomAgrees p e.toNat := by
  have hle := hb.le
  have hlt := e.toNat_lt
  have hguard := guard_toNat e
  have hsize : headerSize = 20 := rfl
  have hmax : maxBufferSize = 1500 := rfl
  rw [HeaderRight, hb.headRoom, hb.payloadBytes]
  by_cases hrefused : (UInt32.ofNat headerSize - e).toNat > p
  · have hset : b.setHeader h e = some (false, b) := by
      rw [setHeader, hb.headRoom, if_pos hrefused]
    have hright : RoomAgrees p e.toNat ↔ ¬ headerSize + e.toNat ≤ p := by
      rw [RoomAgrees]
      split at hguard <;> omega
    rw [hright]
    constructor
    · rintro ⟨ok, b', hok, hiff, -, -⟩ hroom
      rw [hset, Option.some.injEq, Prod.mk.injEq] at hok
      exact absurd (hiff.mpr hroom) (by simp [← hok.1])
    · intro hno
      exact ⟨false, b, hset, iff_of_false Bool.false_ne_true hno,
        fun htrue => absurd htrue Bool.false_ne_true, fun _ => rfl⟩
  · have hright : RoomAgrees p e.toNat ↔ headerSize + e.toNat ≤ p := by
      rw [RoomAgrees]
      split at hguard <;> omega
    rw [hright]
    constructor
    · rintro ⟨ok, b', hok, hiff, -, -⟩
      by_contra hroom
      rw [setHeader, hb.headRoom, if_neg hrefused, hb.anchored] at hok
      dsimp only at hok
      rw [if_neg hroom] at hok
      cases hok
    · intro hroom
      obtain ⟨b', hset, hframed, -⟩ := setHeader_framed (h := h) hb hrefused hroom
      exact ⟨true, b', hset, iff_of_true rfl hroom, fun _ => hframed,
        fun hfalse => absurd hfalse.symm Bool.false_ne_true⟩

/-- A call that meets the condition leaves the payload where it is. -/
theorem Placed.send (hb : Placed p payload b) {s : Sending} (hs : RoomAgrees p s.e.toNat) :
    ∃ b', PacketBuffer.send (some b) s = some b' ∧ Placed p payload b' := by
  obtain ⟨ok, b', hset, hiff, -, hsame⟩ := (headerRight_iff hb s.h s.e).mpr hs
  cases ok with
  | false =>
    refine ⟨b, ?_, hb⟩
    rw [PacketBuffer.send, Option.bind_some, hset, hsame rfl]
  | true =>
    have hroom := hiff.mp rfl
    rw [hb.headRoom] at hroom
    have hrefused : ¬ (UInt32.ofNat headerSize - s.e).toNat > p := by
      intro hrefused
      rw [setHeader, hb.headRoom, if_pos hrefused] at hset
      cases hset
    obtain ⟨b₁, hset₁, -, hfill⟩ := setHeader_framed (h := s.h) hb hrefused hroom
    obtain ⟨b₂, hb₂, hplaced⟩ := hfill s.ext s.length_ext
    refine ⟨b₂, ?_, hplaced⟩
    rw [PacketBuffer.send, Option.bind_some, hset₁]
    exact hb₂

/-! ## Runs -/

/-- A buffer after either way of placing a payload. -/
def Filled (b : PacketBuffer) : Prop :=
  (∃ b₀ data, fillData b₀ data = some b) ∨
    ∃ b₀ cbuf to_read cbuf', fillFrom b₀ cbuf to_read = some (b, cbuf')

theorem Filled.placed (hb : b.Filled) : Placed b.headRoom b.payloadBytes b := by
  have hself : ∀ {p payload}, Placed p payload b → Placed b.headRoom b.payloadBytes b := by
    intro p payload hplaced
    rw [hplaced.headRoom, hplaced.payloadBytes]
    exact hplaced
  rcases hb with ⟨b₀, data, hfill⟩ | ⟨b₀, cbuf, to_read, cbuf', hfill⟩
  · obtain ⟨b', hb', hplaced⟩ := fillData_placed b₀ data
    rw [hfill, Option.some.injEq] at hb'
    rw [← hb'] at hplaced
    exact hself hplaced
  · obtain ⟨p, hplaced⟩ := fillFrom_placed hfill
    exact hself hplaced

/-- **When a packet is framed right.**  For every payload, placed in either way, and every sequence
of headers and extensions, each call of `setHeader` does what it owes exactly when the length of
each extension meets the condition. -/
theorem allSteps_headerRight_iff (b : PacketBuffer) (hb : b.Filled) (sendings : List Sending) :
    AllSteps send SendingRight (some b) sendings ↔
      ∀ s ∈ sendings, RoomAgrees b.headRoom s.e.toNat := by
  obtain ⟨p, hp⟩ : ∃ p, p = b.headRoom := ⟨_, rfl⟩
  have hplaced := hb.placed
  rw [← hp] at hplaced ⊢
  have hrun := @allSteps_iff_of_invariant _ _ send (fun _ s => RoomAgrees p s.e.toNat)
    (fun s => ∃ b', s = some b' ∧ Placed p b.payloadBytes b') SendingRight
    (fun s call ⟨b', hs, hb'⟩ hok => by rw [hs]; exact hb'.send hok)
    (fun s call ⟨b', hs, hb'⟩ => by rw [hs]; exact headerRight_iff hb' call.h call.e)
    sendings (some b) ⟨b, rfl, hplaced⟩
  rw [hrun, allSteps_const_iff]

/-- A buffer with this payload. -/
def packetOf (data : List UInt8) : PacketBuffer :=
  ((new fun _ => 0).fillData data).getD (new fun _ => 0)

theorem fillData_packetOf (data : List UInt8) :
    (new fun _ => 0).fillData data = some (packetOf data) := by
  obtain ⟨b, hb, -⟩ := fillData_placed (new fun _ => 0) data
  rw [packetOf, hb, Option.getD_some]

/-- A data packet, with a selective ack for 32 packets when `e` is 6. -/
def dataHeader (e : UInt32) : PacketHeader :=
  ⟨1, 0, if e = 0 then 0 else selectiveAckId, 1, 0, 0, 0, 1, 1⟩

theorem headRoom_packetOf {data : List UInt8} (h : data.length ≤ maxBufferSize) :
    (packetOf data).headRoom = maxBufferSize - data.length := by
  obtain ⟨b, hb, hplaced⟩ := fillData_placed (new fun _ => 0) data
  rw [fillData_packetOf, Option.some.injEq] at hb
  rw [hb, hplaced.headRoom, List.take_of_length_le h]

/-- A packet with a payload, which is sent again with a selective ack, and once more with another
one. -/
theorem allSteps_headerRight_again :
    AllSteps send SendingRight (some (packetOf [1, 2, 3]))
      [⟨dataHeader 0, 0, [], rfl⟩, ⟨dataHeader 6, 6, [0, 4, 0, 0, 0, 1], rfl⟩,
        ⟨dataHeader 6, 6, [0, 4, 0, 0, 0, 3], rfl⟩] := by
  refine (allSteps_headerRight_iff (packetOf [1, 2, 3]) (.inl ⟨_, _, fillData_packetOf [1, 2, 3]⟩)
    _).mpr ?_
  rw [headRoom_packetOf (by decide)]
  unfold RoomAgrees
  decide

/-- A payload that leaves room for a header and nothing else. -/
def fullPayload : List UInt8 := List.replicate (maxBufferSize - headerSize) 0

theorem placed_fullPayload : ∃ payload, Placed headerSize payload (packetOf fullPayload) := by
  obtain ⟨b, hb, hplaced⟩ := fillData_placed (new fun _ => 0) fullPayload
  rw [fillData_packetOf, Option.some.injEq] at hb
  have hroom : maxBufferSize - (fullPayload.take maxBufferSize).length = headerSize := by
    rw [List.length_take, fullPayload, List.length_replicate, maxBufferSize, headerSize]
    omega
  rw [← hb, hroom] at hplaced
  exact ⟨_, hplaced⟩

/-- A packet with room for a header alone cannot be sent again with a selective ack. -/
theorem Placed.overrun (hb : Placed headerSize payload b) :
    ¬ AllSteps PacketBuffer.send SendingRight (some b)
      [⟨dataHeader 0, 0, [], rfl⟩, ⟨dataHeader 6, 6, [0, 4, 0, 0, 0, 0], rfl⟩] := by
  rintro ⟨-, hright, -⟩
  obtain ⟨b', hb', hplaced⟩ := hb.send (s := ⟨dataHeader 0, 0, [], rfl⟩) (.inl rfl)
  rw [hb'] at hright
  have hagrees : RoomAgrees 20 6 := (headerRight_iff hplaced _ _).mp hright
  revert hagrees
  rw [RoomAgrees, headerSize]
  omega

/-- A full packet that is sent again with a selective ack: the header is written in front of the
array. -/
theorem fullPacket_overrun :
    ¬ AllSteps send SendingRight (some (packetOf fullPayload))
      [⟨dataHeader 0, 0, [], rfl⟩, ⟨dataHeader 6, 6, [0, 4, 0, 0, 0, 0], rfl⟩] :=
  placed_fullPayload.elim fun _ hplaced => hplaced.overrun

end PacketBuffer

end KTorrent
