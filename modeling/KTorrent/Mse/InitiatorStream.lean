import KTorrent.Lib.Run
import KTorrent.Mse.EncryptedServerAuthenticate

/-!
# What an initiator sends

* `Initiator` — one that follows the protocol: a public key, PadA, the two hashes, and
  enciphered the constant, `crypto_provide`, PadC, the initial data and the payload.
* `Initiator.stream` — its bytes; `stream_take_req1` and its neighbours say what stands
  where.
* `Cutting` — a stream cut into non-empty pieces.
-/

namespace KTorrent

open Mse Runs EncryptedPacketSocket

/-- An initiator that follows the protocol towards `c`, which requires encryption and knows
the torrent.  The encodings of `S` are those the responder makes. -/
structure Initiator (c : Responder) where
  ya : LocalBuffer 96
  padA : List UInt8
  infoHash : LocalBuffer 20
  cryptoProvide : UInt32
  padC : List UInt8
  ia : List UInt8
  payload : List UInt8
  padA_le : padA.length ≤ 512
  padC_le : padC.length ≤ 512
  ia_pos : 0 < ia.length
  ia_le : ia.length ≤ 68
  rc4 : cryptoProvide &&& 2 ≠ 0
  known : c.findInfoHash (c.req2 infoHash).1 = some infoHash
  required : c.unencryptedConnectionsAllowed = false

/-- A stream in the pieces in which it arrives. -/
structure Cutting (stream : List UInt8) where
  chunks : List (List UInt8)
  nonempty : ∀ chunk ∈ chunks, chunk ≠ []
  flatten : chunks.flatten = stream

namespace Initiator

variable {c : Responder} (i : Initiator c)

/-- The shared secret. -/
def secret : ℕ := dhSecret c.xb (BigInt.fromBuffer i.ya.1 96)

/-- The ciphers the responder makes of it. -/
def ciphers : RC4Encryptor := c.newRC4 i.secret i.infoHash

/-- What stands in front of PadC. -/
def vc : List UInt8 :=
  List.replicate 8 0 ++ writeUint32 i.cryptoProvide ++ writeUint16 (UInt16.ofNat i.padC.length)

/-- What is enciphered. -/
def plain : List UInt8 :=
  i.vc ++ (i.padC ++ writeUint16 (UInt16.ofNat i.ia.length)) ++ (i.ia ++ i.payload)

/-- What is not. -/
def front : List UInt8 := i.ya.1 ++ i.padA

/-- The two hashes. -/
def hashes : List UInt8 :=
  (c.req1 i.secret).1 ++ Responder.xorHash (c.req2 i.infoHash).1 (c.req3 i.secret).1

/-- The bytes of the initiator. -/
def stream : List UInt8 := i.front ++ i.hashes ++ i.ciphers.dec.apply i.plain

/-- Where the first hash stands. -/
def req1At : ℕ := 96 + i.padA.length

/-- Where the initial data stand. -/
def iaAt : ℕ := i.req1At + 56 + i.padC.length

/-- Where they end. -/
def iaEnd : ℕ := i.iaAt + i.ia.length

/-- The message that selects RC4. -/
def reply : List UInt8 :=
  i.ciphers.enc.apply (List.replicate 8 0 ++ writeUint32 2 ++ writeUint16 0)

/-! ## What stands where -/

@[simp] theorem length_xorHash (a b : LocalBuffer 20) : (Responder.xorHash a.1 b.1).length = 20 := by
  simp [Responder.xorHash, a.2, b.2]

/-- A hash added twice is gone. -/
theorem xorHash_xorHash (a b : List UInt8) (h : a.length = b.length) :
    Responder.xorHash (Responder.xorHash a b) b = a := by
  induction a generalizing b with
  | nil => cases b <;> rfl
  | cons x a ih =>
    cases b with
    | nil => cases h
    | cons y b =>
      have hrest := ih b (Nat.succ.inj h)
      simp only [Responder.xorHash] at hrest ⊢
      simp only [List.zipWith_cons_cons, hrest, UInt8.xor_assoc, UInt8.xor_self, UInt8.xor_zero]

@[simp] theorem length_front : i.front.length = i.req1At := by
  simp [front, req1At, i.ya.2]

@[simp] theorem length_hashes : i.hashes.length = 40 := by
  simp [hashes, (c.req1 i.secret).2]

@[simp] theorem length_vc : i.vc.length = 14 := by
  simp [vc]

theorem length_plain : i.plain.length = 16 + i.padC.length + (i.ia.length + i.payload.length) := by
  simp [plain]
  omega

theorem length_stream : i.stream.length = i.iaEnd + i.payload.length := by
  simp [stream, length_plain, iaEnd, iaAt]
  omega

/-- The handshake fits into the buffer. -/
theorem iaEnd_le : i.iaEnd ≤ maxSeaBufSize := by
  have hA := i.padA_le
  have hC := i.padC_le
  have hia := i.ia_le
  simp only [iaEnd, iaAt, req1At, maxSeaBufSize]
  omega

theorem iaAt_add_68_le : i.iaAt + 68 ≤ maxSeaBufSize := by
  have hA := i.padA_le
  have hC := i.padC_le
  simp only [iaAt, req1At, maxSeaBufSize]
  omega

/-- The first 96 bytes are the public key. -/
theorem stream_take_ya : i.stream.take 96 = i.ya.1 := by
  simp only [stream, front, List.append_assoc]
  exact List.take_left' i.ya.2

theorem stream_drop_front : i.stream.drop i.req1At = i.hashes ++ i.ciphers.dec.apply i.plain := by
  rw [stream, List.append_assoc]
  exact List.drop_left' i.length_front

/-- The first hash is where it should be. -/
theorem stream_req1 : (i.stream.drop i.req1At).take 20 = (c.req1 i.secret).1 := by
  rw [stream_drop_front, hashes, List.append_assoc]
  exact List.take_left' (c.req1 i.secret).2

/-- So is the second. -/
theorem stream_req2 : (i.stream.drop (i.req1At + 20)).take 20
    = Responder.xorHash (c.req2 i.infoHash).1 (c.req3 i.secret).1 := by
  rw [← List.drop_drop, stream_drop_front, hashes, List.append_assoc,
    List.drop_left' (c.req1 i.secret).2]
  exact List.take_left' (length_xorHash _ _)

/-- Everything behind the hashes is enciphered. -/
theorem stream_drop (k : ℕ) : i.stream.drop (i.req1At + 40 + k)
    = (i.ciphers.dec.advance k).apply (i.plain.drop k) := by
  rw [KeyStream.apply_drop, ← List.drop_drop, ← List.drop_drop, stream_drop_front,
    List.drop_left' i.length_hashes]

/-- The initial data and the payload, still enciphered. -/
theorem decipher_stream_drop :
    (i.ciphers.dec.advance (16 + i.padC.length)).apply (i.stream.drop i.iaAt)
      = i.ia ++ i.payload := by
  have hat : i.iaAt = i.req1At + 40 + (16 + i.padC.length) := by simp only [iaAt]; omega
  have hlen : (i.vc ++ (i.padC ++ writeUint16 (UInt16.ofNat i.ia.length))).length
      = 16 + i.padC.length := by simp; omega
  rw [hat, stream_drop, KeyStream.apply_apply, plain, List.drop_left' hlen]

end Initiator

end KTorrent
