import KTorrent.Lib.Pieces
import KTorrent.Mse.EncryptedAuthenticate
import KTorrent.Mse.InitiatorStream

/-!
# What a responder answers

* `Answerer` — one that follows the protocol and selects RC4: a public key, PadB, and
  enciphered the constant, `crypto_select`, PadD and the payload.
* `Answerer.stream` — its bytes; `stream_vc` and its neighbours say what stands where.
* `Delivery` — the stream in non-empty pieces, with between 96 and 608 bytes in the first.
-/

namespace KTorrent

open Mse Runs EncryptedPacketSocket

/-- A responder that follows the protocol towards `c`. -/
structure Answerer (c : Opener) where
  yb : LocalBuffer 96
  padB : List UInt8
  cryptoSelect : UInt32
  padD : List UInt8
  payload : List UInt8
  padB_le : padB.length ≤ 512
  padD_le : padD.length ≤ 512
  notPlain : cryptoSelect &&& 1 = 0
  rc4 : cryptoSelect &&& 2 ≠ 0

/-- A stream in pieces, the first of which is the answer to the public key. -/
structure Delivery (stream : List UInt8) extends Cutting stream where
  first : ∃ chunk ∈ chunks.head?, 96 ≤ chunk.length ∧ chunk.length ≤ 608

namespace Answerer

variable {c : Opener} (a : Answerer c)

/-- The keys of the initiator: `enc` and `dec`. -/
def keys : List UInt8 × List UInt8 :=
  let inputs := initiatorInputs c.xa a.yb.1 c.infoHash c.memory
  ((c.sha1 inputs.keyA).1, (c.sha1 inputs.keyB).1)

/-- The ciphers the initiator makes of them. -/
def ciphers : RC4Encryptor := RC4Encryptor.new c.rc4 a.keys.2 a.keys.1

/-- What stands in front of PadD. -/
def vc : List UInt8 :=
  List.replicate 8 0 ++ writeUint32 a.cryptoSelect ++ writeUint16 (UInt16.ofNat a.padD.length)

/-- What is enciphered. -/
def plain : List UInt8 := a.vc ++ a.padD ++ a.payload

/-- What is not. -/
def front : List UInt8 := a.yb.1 ++ a.padB

/-- The bytes of the responder. -/
def stream : List UInt8 := a.front ++ a.ciphers.dec.apply a.plain

/-- Where the constant stands. -/
def vcAt : ℕ := 96 + a.padB.length

/-- Where the payload stands. -/
def payloadAt : ℕ := a.vcAt + 14 + a.padD.length

/-- The constant, enciphered. -/
def encVC : List UInt8 := a.ciphers.dec.apply (List.replicate 8 0)

/-! ## What stands where -/

@[simp] theorem length_front : a.front.length = a.vcAt := by
  simp [front, vcAt, a.yb.2]

@[simp] theorem length_vc : a.vc.length = 14 := by
  simp [vc]

@[simp] theorem length_encVC : a.encVC.length = 8 := by
  simp [encVC]

theorem length_stream : a.stream.length = a.payloadAt + a.payload.length := by
  simp [stream, plain, payloadAt]
  omega

theorem vcAt_le : a.vcAt ≤ 608 := by
  have hB := a.padB_le
  simp only [vcAt]
  omega

/-- The handshake fits into the buffer. -/
theorem payloadAt_le : a.payloadAt ≤ maxEaBufSize := by
  have hB := a.vcAt_le
  have hD := a.padD_le
  simp only [payloadAt, maxEaBufSize]
  omega

/-- The first 96 bytes are the public key. -/
theorem stream_take_yb : a.stream.take 96 = a.yb.1 := by
  simp only [stream, front, List.append_assoc]
  exact List.take_left' a.yb.2

/-- Everything from the constant on is enciphered. -/
theorem stream_drop (k : ℕ) : a.stream.drop (a.vcAt + k)
    = (a.ciphers.dec.advance k).apply (a.plain.drop k) := by
  rw [KeyStream.apply_drop, ← List.drop_drop, stream, List.drop_left' a.length_front]

/-- The constant is where it should be. -/
theorem stream_vc : (a.stream.drop a.vcAt).take 8 = a.encVC := by
  have hfront : a.plain.take 8 = List.replicate 8 0 := by
    rw [plain, vc, List.append_assoc, List.append_assoc, List.append_assoc]
    exact List.take_left' (by simp)
  rw [← Nat.add_zero a.vcAt, stream_drop, KeyStream.advance_zero, List.drop_zero,
    ← KeyStream.apply_take, hfront, encVC]

/-- The payload, still enciphered. -/
theorem decipher_stream_drop :
    (a.ciphers.dec.advance (14 + a.padD.length)).apply (a.stream.drop a.payloadAt)
      = a.payload := by
  have hat : a.payloadAt = a.vcAt + (14 + a.padD.length) := by simp only [payloadAt]; omega
  have hlen : (a.vc ++ a.padD).length = 14 + a.padD.length := by simp
  rw [hat, stream_drop, KeyStream.apply_apply, plain, List.drop_left' hlen]

/-- What stands in PadB and the constant. -/
theorem stream_drop_padB {k : ℕ} (hk : k ≤ a.padB.length) :
    (a.stream.drop (96 + k)).take 8 = ((a.padB ++ a.encVC).drop k).take 8 := by
  have hsplit : a.stream.drop 96 = a.padB ++ a.ciphers.dec.apply a.plain := by
    simp only [stream, front, List.append_assoc]
    rw [List.drop_left' a.yb.2]
  have hvc : a.ciphers.dec.apply a.plain = a.encVC ++ (a.ciphers.dec.apply a.plain).drop 8 := by
    have htake : (a.ciphers.dec.apply a.plain).take 8 = a.encVC := by
      have hdrop := a.stream_drop 0
      have hstream := a.stream_vc
      rw [Nat.add_zero, KeyStream.advance_zero, List.drop_zero] at hdrop
      rwa [hdrop] at hstream
    rw [← htake, List.take_append_drop]
  rw [← List.drop_drop, hsplit, hvc, ← List.append_assoc,
    List.drop_append_of_le_length (by simp; omega),
    List.take_append_of_le_length (by simp; omega)]

end Answerer

end KTorrent
