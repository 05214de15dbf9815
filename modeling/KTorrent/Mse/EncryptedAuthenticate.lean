import KTorrent.Mse.EncryptedServerAuthenticate

/-!
# `EncryptedAuthenticate`

`mse/encryptedauthenticate.cpp`: the initiator's side of the encrypted handshake, for a
connection without a proxy.

* `Opener` — what the handlers take from elsewhere: the hash and the cipher, the private
  key, the torrent, the settings and the local buffers.
* `EncryptedAuthenticate` — the state, with two accounts: `sent`, the messages, and
  `decrypted`, the positions in the received data the handshake's cipher was run over.
* `handleYB` … `handlePadD`, `onReadyRead`, and `arrive`, an `onReadyRead` for new data.
-/

namespace KTorrent

open Mse Buffer

/-- `MAX_EA_BUF_SIZE`. -/
def maxEaBufSize : ℕ := 622 + 512

/-- What the handlers take from elsewhere. -/
structure Opener where
  sha1 : List UInt8 → LocalBuffer 20
  rc4 : List UInt8 → ℕ → UInt8
  xa : ℕ
  infoHash : LocalBuffer 20
  ourPeerId : LocalBuffer 20
  dhtRunning : Bool
  unencryptedConnectionsAllowed : Bool
  memory : Memory
  verdicts : Verdicts

/-- `AuthenticateBase::makeHandshake(hs, info_hash, our_peer_id)`. -/
def makeHandshake (dhtRunning : Bool) (infoHash ourPeerId : LocalBuffer 20) : List UInt8 :=
  19 :: AuthenticateBase.protocolName
    ++ [0, 0, 0, 0, 0, 0x10, 0, (if dhtRunning then 0x01 else 0) ||| 0x04]
    ++ infoHash.1 ++ ourPeerId.1

/-- `EncryptedAuthenticate::State`. -/
inductive EaState where
  | notConnected
  | sentYA
  | gotYB
  | foundVC
  | waitForPadD
  | normalHandshake
  deriving DecidableEq

/-- The members of the class; `buf` is what the buffer holds, `buf_size` its length. -/
structure EncryptedAuthenticate extends AuthenticateBase where
  state : EaState
  buf : List UInt8
  vcOff : ℕ
  s : ℕ
  enc : List UInt8
  dec : List UInt8
  cryptoSelect : UInt32
  padDLen : ℕ
  endOfCryptoHandshake : ℕ
  ourRc4 : Option RC4Encryptor
  /-- The messages sent before the BitTorrent handshake. -/
  sent : List (List UInt8)
  /-- The positions of `buf` that `our_rc4` deciphered, in the order it did. -/
  decrypted : List ℕ

namespace EncryptedAuthenticate

/-- The constructor. -/
def new : EncryptedAuthenticate :=
  { AuthenticateBase.new with
    state := .notConnected, buf := [], vcOff := 0, s := 0, enc := [], dec := []
    cryptoSelect := 0, padDLen := 0, endOfCryptoHandshake := 0, ourRc4 := none
    sent := [], decrypted := [] }

/-- `connected()`. -/
def connected (c : Opener) (s : EncryptedAuthenticate) : EncryptedAuthenticate :=
  { s with sent := s.sent ++ [yaMessage c.xa c.memory], state := .sentYA }

/-- `onFinish(false)` in a handler. -/
def fail (s : EncryptedAuthenticate) : EncryptedAuthenticate :=
  { s with finish := some .encrypted }

/-- `buf_size += sock->readData(buf + buf_size, ba)`; the device serves what is asked. -/
def readInto (s : EncryptedAuthenticate) (ba : ℕ) : EncryptedAuthenticate :=
  let r := s.sock.readData s.device (List.replicate ba 0) ba (some ba)
  { s with sock := r.sock, device := r.device, buf := s.buf ++ r.buf.take r.ret }

/-- `our_rc4->decrypt(buf + off, len)`. -/
def decryptAt (s : EncryptedAuthenticate) (e : RC4Encryptor) (off len : ℕ) :
    EncryptedAuthenticate :=
  { s with
    buf := s.buf.take off ++ (e.decrypt (s.buf.drop off) len).1
    ourRc4 := some (e.decrypt (s.buf.drop off) len).2
    decrypted := s.decrypted ++ List.range' off len }

/-- `Authenticate::onReadyRead()`. -/
def baseOnReadyRead (c : Opener) (s : EncryptedAuthenticate) : EncryptedAuthenticate :=
  { s with toAuthenticateBase := s.toAuthenticateBase.onReadyRead c.verdicts }

/-- `handlePadD()`. -/
def handlePadD (c : Opener) (s : EncryptedAuthenticate) : EncryptedAuthenticate :=
  match s.ourRc4 with
  | none => s
  | some e =>
    let off := s.vcOff + 14 + s.padDLen
    let s := s.decryptAt e (s.vcOff + 14) s.padDLen
    if s.cryptoSelect &&& 1 = 0 ∧ s.cryptoSelect &&& 2 = 0 then s.fail
    else
      let s := if s.cryptoSelect &&& 1 ≠ 0 then { s with ourRc4 := none }
        else { s with sock := s.sock.setRC4Encryptor s.ourRc4, ourRc4 := none }
      let s := { s with state := .normalHandshake }
      if off < s.buf.length then
        baseOnReadyRead c { s with sock := s.sock.reinsert (s.buf.drop off) }
      else s

/-- What `handleCryptoSelect()` does with the 14 bytes it has deciphered. -/
def readVC (c : Opener) (s : EncryptedAuthenticate) : EncryptedAuthenticate :=
  if (s.buf.drop s.vcOff).take 8 ≠ List.replicate 8 0 then s.fail
  else
    match readUint32 s.buf (s.vcOff + 8), readUint16 s.buf (s.vcOff + 12) with
    | some select, some padDLen =>
      let s := { s with cryptoSelect := select, padDLen := padDLen.toNat }
      if s.padDLen > 512 then s.fail
      else
        let s := { s with endOfCryptoHandshake := s.vcOff + 14 + s.padDLen }
        if ¬ s.vcOff + 14 + s.padDLen < s.buf.length then { s with state := .waitForPadD }
        else s.handlePadD c
    | _, _ => s

/-- `handleCryptoSelect()`. -/
def handleCryptoSelect (c : Opener) (s : EncryptedAuthenticate) : EncryptedAuthenticate :=
  if s.vcOff + 14 ≥ s.buf.length then s
  else
    match s.ourRc4 with
    | none => s
    | some e => (s.decryptAt e s.vcOff 14).readVC c

/-- The constant, enciphered with the responder's key: a cipher of its own, with the two
keys exchanged, is run over it. -/
def encryptedVC (c : Opener) (enc dec : List UInt8) : List UInt8 :=
  ((RC4Encryptor.new c.rc4 enc dec).encrypt (List.replicate 8 0)).1

/-- The search of `findVC()`: from byte 96 on, while 8 bytes and one more are there. -/
def searchVC (buf vc : List UInt8) : Option ℕ :=
  (List.range' 96 (buf.length - 8 - 96)).find? fun i => (buf.drop i).take 8 = vc

/-- `findVC()`. -/
def findVC (c : Opener) (s : EncryptedAuthenticate) : EncryptedAuthenticate :=
  match searchVC s.buf (encryptedVC c s.enc s.dec) with
  | some i => handleCryptoSelect c { s with state := .foundVC, vcOff := i }
  | none => if s.buf.length ≥ 616 then s.fail else s

/-- The constant, `crypto_provide`, no PadC, the length of the handshake and the handshake. -/
def provideMessage (c : Opener) : List UInt8 :=
  List.replicate 8 0 ++ [0, 0, 0, if c.unencryptedConnectionsAllowed then 0x03 else 0x02]
    ++ writeUint16 0 ++ writeUint16 68 ++ makeHandshake c.dhtRunning c.infoHash c.ourPeerId

/-- `handleYB()`. -/
def handleYB (c : Opener) (s : EncryptedAuthenticate) : EncryptedAuthenticate :=
  if s.buf.length < 96 then s.fail
  else
    let inputs := initiatorInputs c.xa s.buf c.infoHash c.memory
    let req2 := (c.sha1 (ascii "req2" ++ c.infoHash.1)).1
    let enc := (c.sha1 inputs.keyA).1
    let dec := (c.sha1 inputs.keyB).1
    let (provide, e) := (RC4Encryptor.new c.rc4 dec enc).encrypt (provideMessage c)
    findVC c { s with
      s := dhSecret c.xa (BigInt.fromBuffer s.buf 96)
      state := .gotYB
      enc := enc
      dec := dec
      ourRc4 := some e
      sent := s.sent ++ [(c.sha1 inputs.req1).1,
        Responder.xorHash req2 (c.sha1 inputs.req3).1, provide] }

/-- How many of `ba` available bytes are read into the buffer: what fits, and nothing
behind PadD. -/
def bytesToRead (s : EncryptedAuthenticate) (ba : ℕ) : ℕ :=
  let ba := if s.buf.length + ba > maxEaBufSize then maxEaBufSize - s.buf.length else ba
  if s.padDLen > 0 ∧ s.buf.length + ba > s.vcOff + 14 + s.padDLen then
    s.vcOff + 14 + s.padDLen - s.buf.length
  else ba

/-- `onReadyRead()`.  A connection that is over has no socket any more. -/
def onReadyRead (c : Opener) (s : EncryptedAuthenticate) : EncryptedAuthenticate :=
  if s.finish.isSome then s
  else
    let ba := s.sock.bytesAvailable s.device
    if ba = 0 then s.fail
    else
      let toRead := s.bytesToRead ba
      match s.state with
      | .sentYA =>
        let s := s.readInto toRead
        if toRead > 608 then s.fail else s.handleYB c
      | .gotYB => (s.readInto toRead).findVC c
      | .foundVC => (s.readInto toRead).handleCryptoSelect c
      | .waitForPadD => (s.readInto toRead).handlePadD c
      | .normalHandshake => baseOnReadyRead c s
      | .notConnected => s.readInto toRead

/-- Data arrives, and `onReadyRead` is called for it. -/
def arrive (c : Opener) (s : EncryptedAuthenticate) (chunk : List UInt8) :
    EncryptedAuthenticate :=
  onReadyRead c { s with device := s.device ++ chunk }

end EncryptedAuthenticate

end KTorrent
