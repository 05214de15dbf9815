import KTorrent.Mse.EncryptedPacketSocket

/-!
# `AuthenticateBase`

`AuthenticateBase::onReadyRead` of `peer/authenticatebase.cpp`: the 68 bytes of the
BitTorrent handshake are read from the socket, in one piece or in two.

* `Verdicts` — what the subclass makes of a handshake, whole or in part.
* `onReadyRead` — nothing below 48 available bytes; then a part, or all of it.
* `Handing` — what was read is the front of a raw stream, deciphered once; the rest is
  still there.  `Handing.onReadyRead` — kept when no read needs both sources of the
  socket (`OneSource`).
* `Handing.overruns` — a read that does need both moves the cipher too far.
-/

namespace KTorrent

open EncryptedPacketSocket

/-- What `handshakeReceived` decides: whether to go on after a part of the handshake, and
whether the whole of it is accepted. -/
structure Verdicts where
  goOn : List UInt8 → Bool
  accept : List UInt8 → Bool

/-- Which `onFinish` ended an authentication: one of the encrypted handshake, which is
always a failure, or one of the BitTorrent handshake. -/
inductive Finish where
  | encrypted
  | plain (success : Bool)
  deriving DecidableEq

/-- `sock`, with its device, `handshake`, `bytes_of_handshake_received` and `finished`. -/
structure AuthenticateBase where
  sock : EncryptedPacketSocket
  device : List UInt8
  handshake : List UInt8
  bytesOfHandshakeReceived : ℕ
  finish : Option Finish
  /-- The bytes that were read into the handshake, one after the other. -/
  handed : List UInt8

namespace AuthenticateBase

/-- The constructors, on a socket. -/
def new : AuthenticateBase := ⟨EncryptedPacketSocket.new, [], List.replicate 68 0, 0, none, []⟩

/-- `onFinish(success)` from the BitTorrent handshake. -/
def onFinish (b : AuthenticateBase) (success : Bool) : AuthenticateBase :=
  { b with finish := some (.plain success) }

/-- `sock->readData(handshake + off, len)`; the device serves what is asked. -/
def readHandshake (b : AuthenticateBase) (off len : ℕ) : AuthenticateBase :=
  let r := b.sock.readData b.device ((b.handshake.drop off).take len) len (some len)
  { b with
    sock := r.sock
    device := r.device
    handshake := Buffer.overwrite b.handshake off r.buf
    handed := b.handed ++ r.buf }

/-- The text behind the first byte of a handshake. -/
def protocolName : List UInt8 :=
  [66, 105, 116, 84, 111, 114, 114, 101, 110, 116, 32, 112, 114, 111, 116, 111, 99, 111, 108]

/-- The end of `onReadyRead`: all 68 bytes are there. -/
def checkHandshake (v : Verdicts) (b : AuthenticateBase) : AuthenticateBase :=
  if b.handshake.head? ≠ some 19 then b.onFinish false
  else if (b.handshake.drop 1).take 19 ≠ protocolName then b.onFinish false
  else b.onFinish (v.accept b.handshake)

/-- `AuthenticateBase::onReadyRead()`. -/
def onReadyRead (v : Verdicts) (b : AuthenticateBase) : AuthenticateBase :=
  let ba := b.sock.bytesAvailable b.device
  if ba = 0 then b.onFinish false
  else if b.finish.isSome ∨ ba < 48 then b
  else if b.bytesOfHandshakeReceived = 0 then
    if ba < 68 then
      -- a part of the handshake
      let b := b.readHandshake 0 ba
      let b := { b with bytesOfHandshakeReceived := b.bytesOfHandshakeReceived + ba }
      if v.goOn b.handshake then b else b.onFinish false
    else (b.readHandshake 0 68).checkHandshake v
  else
    let toRead := 68 - b.bytesOfHandshakeReceived
    (b.readHandshake b.bytesOfHandshakeReceived toRead).checkHandshake v

/-! ## What is handed over -/

/-- What was read is the front of `raw`, deciphered once from the cipher `e` on; the rest
is still in the socket and its device. -/
structure Handing (e : Option RC4Encryptor) (raw : List UInt8) (b : AuthenticateBase) : Prop where
  sound : b.sock.Sound
  handshake : b.handshake.length = 68
  enc : b.sock.enc = advance e b.handed.length
  le : b.handed.length ≤ raw.length
  handed : b.handed = decipher e (raw.take b.handed.length)
  rest : b.sock.unread ++ b.device = raw.drop b.handed.length
  received : b.bytesOfHandshakeReceived = 0 ∨
    (48 ≤ b.bytesOfHandshakeReceived ∧ b.bytesOfHandshakeReceived < 68)

/-- No read of up to 68 bytes needs both the data put back and the device. -/
def OneSource (b : AuthenticateBase) : Prop :=
  b.sock.unread = [] ∨ b.device = [] ∨ 68 ≤ b.sock.unread.length

variable {e : Option RC4Encryptor} {raw : List UInt8} {b : AuthenticateBase} {v : Verdicts}

/-- All of the raw stream is accounted for. -/
theorem Handing.due (h : Handing e raw b) :
    b.handed ++ decipher b.sock.enc (b.sock.unread ++ b.device) = decipher e raw := by
  have htake : (raw.take b.handed.length).length = b.handed.length := by
    rw [List.length_take, min_eq_left h.le]
  conv_rhs => rw [← List.take_append_drop b.handed.length raw, decipher_append, htake]
  rw [h.enc, h.rest, ← h.handed]

theorem Handing.available (h : Handing e raw b) :
    b.sock.bytesAvailable b.device = raw.length - b.handed.length := by
  have hrest := congrArg List.length h.rest
  rw [List.length_append, List.length_drop] at hrest
  rw [bytesAvailable_eq h.sound, hrest]

/-- More comes in at the device. -/
theorem Handing.arrive (h : Handing e raw b) (c : List UInt8) :
    Handing e (raw ++ c) { b with device := b.device ++ c } where
  sound := h.sound
  handshake := h.handshake
  enc := h.enc
  le := by
    have hle := h.le
    show b.handed.length ≤ (raw ++ c).length
    simp; omega
  handed := by
    show b.handed = decipher e ((raw ++ c).take b.handed.length)
    rw [List.take_append_of_le_length h.le]
    exact h.handed
  rest := by
    show b.sock.unread ++ (b.device ++ c) = (raw ++ c).drop b.handed.length
    rw [List.drop_append_of_le_length h.le, ← List.append_assoc, h.rest]
  received := h.received

/-- A read of one source, of what is there, hands over the next bytes. -/
theorem Handing.readHandshake (h : Handing e raw b) {off len : ℕ} (hoff : off + len ≤ 68)
    (hone : OneSource b) (hlen : len ≤ raw.length - b.handed.length) :
    Handing e raw (b.readHandshake off len) ∧
      (b.readHandshake off len).handed.length = b.handed.length + len := by
  have hbuf : ((b.handshake.drop off).take len).length = len := by
    have := h.handshake
    simp; omega
  have hrest := congrArg List.length h.rest
  rw [List.length_append, List.length_drop] at hrest
  have hlength : (b.sock.readData b.device ((b.handshake.drop off).take len) len
      (some len)).buf.length = len := readData_length h.sound hbuf
  have hserves : Serves b.sock b.device
      (b.sock.readData b.device ((b.handshake.drop off).take len) len (some len)) len := by
    by_cases hle : len ≤ b.sock.unread.length
    · exact readData_reinserted h.sound hle hbuf
    · -- the device alone
      have hnil : b.sock.unread = [] := by
        obtain hnil | hnil | h68 := hone
        · exact hnil
        · rw [hnil, List.length_nil] at hrest
          omega
        · omega
      rw [hnil, List.length_nil] at hrest
      have hmin : min len (min len b.device.length) = len := by omega
      have hdevice : Serves b.sock b.device
          (b.sock.readData b.device ((b.handshake.drop off).take len) len (some len))
          (min len (min len b.device.length)) := readData_device h.sound hnil hbuf (by omega) len
      rwa [hmin] at hdevice
  obtain ⟨r, hr⟩ : ∃ r, r = b.sock.readData b.device ((b.handshake.drop off).take len) len
    (some len) := ⟨_, rfl⟩
  rw [← hr] at hlength hserves
  have hgot : r.buf = decipher b.sock.enc ((b.sock.unread ++ b.device).take len) := by
    rw [← hserves.bytes, ← hlength, List.take_length]
  have htake : (raw.take b.handed.length).length = b.handed.length := by
    rw [List.length_take, min_eq_left h.le]
  have hgrown : (b.handed ++ r.buf).length = b.handed.length + len := by
    rw [List.length_append, hlength]
  have heq : b.readHandshake off len = { b with
      sock := r.sock
      device := r.device
      handshake := Buffer.overwrite b.handshake off r.buf
      handed := b.handed ++ r.buf } := by rw [AuthenticateBase.readHandshake, hr]
  rw [heq]
  refine ⟨?_, hgrown⟩
  exact {
    sound := hserves.sound
    handshake := by
      have := h.handshake
      rw [Buffer.length_overwrite (by omega), h.handshake]
    enc := by
      show r.sock.enc = advance e (b.handed ++ r.buf).length
      rw [hserves.enc, h.enc, advance_advance, hgrown]
    le := by
      have := h.le
      show (b.handed ++ r.buf).length ≤ raw.length
      omega
    handed := by
      show b.handed ++ r.buf = decipher e (raw.take (b.handed ++ r.buf).length)
      rw [hgrown, List.take_add, decipher_append, htake, ← h.handed, hgot, h.enc, h.rest]
    rest := by
      show r.sock.unread ++ r.device = raw.drop (b.handed ++ r.buf).length
      rw [hserves.rest, hgrown, ← List.drop_drop, h.rest]
    received := h.received }

/-- Ending the authentication leaves the account alone. -/
theorem Handing.onFinish (h : Handing e raw b) (success : Bool) :
    Handing e raw (b.onFinish success) := ⟨h.sound, h.handshake, h.enc, h.le, h.handed, h.rest,
  h.received⟩

theorem Handing.checkHandshake (h : Handing e raw b) (v : Verdicts) :
    Handing e raw (b.checkHandshake v) ∧ (b.checkHandshake v).handed = b.handed ∧
      ∃ success, (b.checkHandshake v).finish = some (.plain success) := by
  rw [AuthenticateBase.checkHandshake]
  split
  · exact ⟨h.onFinish _, rfl, _, rfl⟩
  split
  · exact ⟨h.onFinish _, rfl, _, rfl⟩
  · exact ⟨h.onFinish _, rfl, _, rfl⟩

/-- Fewer than 48 bytes are left alone. -/
theorem Handing.onReadyRead_short (h : Handing e raw b) (hav : 0 < raw.length - b.handed.length)
    (hshort : raw.length - b.handed.length < 48) : b.onReadyRead v = b := by
  rw [AuthenticateBase.onReadyRead]
  simp only [h.available]
  rw [if_neg (by omega), if_pos (.inr hshort)]

/-- **The step lemma.**  What is available is handed over from its front, or left alone;
afterwards the authentication is over, or nothing that was put back is unread, or fewer
than 48 bytes have come. -/
theorem Handing.onReadyRead (h : Handing e raw b) (hopen : b.finish = none)
    (hav : 0 < raw.length - b.handed.length)
    (hone : 48 ≤ raw.length - b.handed.length → OneSource b) :
    Handing e raw (b.onReadyRead v) ∧ (b.onReadyRead v).finish ≠ some .encrypted ∧
      ((b.onReadyRead v).finish.isSome ∨ (b.onReadyRead v).sock.unread = [] ∨
        (raw.length - b.handed.length < 48 ∧ b.onReadyRead v = b)) := by
  have hplain : ∀ {x : AuthenticateBase}, (∃ success, x.finish = some (.plain success)) →
      x.finish ≠ some .encrypted ∧ x.finish.isSome := by
    rintro x ⟨success, hx⟩
    simp [hx]
  rw [AuthenticateBase.onReadyRead]
  simp only [h.available]
  rw [if_neg (by omega)]
  simp only [hopen, Option.isSome_none, Bool.false_eq_true, false_or]
  split
  · rename_i hshort
    exact ⟨h, by simp [hopen], .inr (.inr ⟨hshort, rfl⟩)⟩
  rename_i hlong
  have hone := hone (not_lt.mp hlong)
  split
  · rename_i hfirst
    split
    · -- a part: all that is available
      rename_i hpart
      obtain ⟨hread, hlen⟩ : Handing e raw (b.readHandshake 0 (raw.length - b.handed.length)) ∧ _ :=
        h.readHandshake (by omega) hone le_rfl
      have hall := h.le
      have hnil : (b.readHandshake 0 (raw.length - b.handed.length)).sock.unread = [] := by
        have hrest := hread.rest
        rw [hlen, List.drop_eq_nil_of_le (by omega)] at hrest
        exact (List.append_eq_nil_iff.mp hrest).1
      have hrec : (b.readHandshake 0 (raw.length - b.handed.length)).bytesOfHandshakeReceived
          = 0 := hfirst
      have hincomplete : Handing e raw { b.readHandshake 0 (raw.length - b.handed.length) with
          bytesOfHandshakeReceived := (b.readHandshake 0
            (raw.length - b.handed.length)).bytesOfHandshakeReceived
              + (raw.length - b.handed.length) } :=
        { hread with received := .inr (by simp only [hrec]; omega) }
      split
      · refine ⟨hincomplete, ?_, .inr (.inl hnil)⟩
        show b.finish ≠ _
        simp [hopen]
      · exact ⟨hincomplete.onFinish _, by simp [AuthenticateBase.onFinish],
          .inl (by simp [AuthenticateBase.onFinish])⟩
    · obtain ⟨hread, -⟩ : Handing e raw (b.readHandshake 0 68) ∧ _ :=
        h.readHandshake (by omega) hone (by omega)
      obtain ⟨hcheck, -, hfin⟩ := hread.checkHandshake v
      exact ⟨hcheck, (hplain hfin).1, .inl (hplain hfin).2⟩
  · -- the rest of it
    rename_i hsecond
    have hrec := h.received.resolve_left hsecond
    obtain ⟨hread, -⟩ : Handing e raw
        (b.readHandshake b.bytesOfHandshakeReceived (68 - b.bytesOfHandshakeReceived)) ∧ _ :=
      h.readHandshake (by omega) hone (by omega)
    obtain ⟨hcheck, -, hfin⟩ := hread.checkHandshake v
    exact ⟨hcheck, (hplain hfin).1, .inl (hplain hfin).2⟩

/-- A first read that needs both the data put back and the device leaves the cipher
further on than the bytes handed over. -/
theorem Handing.overruns (h : Handing e raw b) (hopen : b.finish = none)
    (hfirst : b.bytesOfHandshakeReceived = 0) (hnil : b.handed = [])
    (hne : b.sock.unread ≠ []) (hlong : 48 ≤ raw.length)
    (hshort : b.sock.unread.length < raw.length) (h68 : b.sock.unread.length < 68) :
    (b.onReadyRead v).sock.enc
      = advance e ((b.onReadyRead v).handed.length + b.sock.unread.length) := by
  have hav := h.available
  rw [hnil, List.length_nil, Nat.sub_zero] at hav
  have henc := h.enc
  rw [hnil, List.length_nil, advance_zero] at henc
  have hrest := congrArg List.length h.rest
  rw [hnil, List.length_nil, List.drop_zero, List.length_append] at hrest
  -- the read itself, of `len` bytes
  have hread : ∀ len, b.sock.unread.length < len → len ≤ raw.length → len ≤ 68 →
      (b.readHandshake 0 len).sock.enc
        = advance e ((b.readHandshake 0 len).handed.length + b.sock.unread.length) := by
    intro len hlt hle hle68
    have hbuf : ((b.handshake.drop 0).take len).length = len := by
      have := h.handshake
      simp; omega
    have hboth : (b.sock.readData b.device ((b.handshake.drop 0).take len) len (some len)).sock.enc
        = advance b.sock.enc (b.sock.unread.length + len) :=
      readData_both_enc h.sound hbuf (by omega) hne hlt (by omega)
    have hlength : (b.sock.readData b.device ((b.handshake.drop 0).take len) len
        (some len)).buf.length = len := readData_length h.sound hbuf
    simp only [AuthenticateBase.readHandshake, hboth, henc, hnil, List.nil_append, hlength,
      Nat.add_comm]
  have hcheck : ∀ x : AuthenticateBase, (x.checkHandshake v).sock = x.sock ∧
      (x.checkHandshake v).handed = x.handed := by
    intro x
    rw [AuthenticateBase.checkHandshake]
    split
    · exact ⟨rfl, rfl⟩
    · split <;> exact ⟨rfl, rfl⟩
  rw [AuthenticateBase.onReadyRead]
  simp only [hav]
  rw [if_neg (by omega)]
  simp only [hopen, Option.isSome_none, Bool.false_eq_true, false_or]
  rw [if_neg (by omega), if_pos hfirst]
  split
  · have hpart := hread raw.length hshort le_rfl (by omega)
    split <;> exact hpart
  · rw [(hcheck _).1, (hcheck _).2]
    exact hread 68 h68 (by omega) le_rfl

end AuthenticateBase

end KTorrent
