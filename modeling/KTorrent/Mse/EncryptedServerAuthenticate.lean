import KTorrent.Mse.AuthenticateBase
import KTorrent.Mse.KeyAgreement
import KTorrent.Util.Endian

/-!
# `EncryptedServerAuthenticate`

`mse/encryptedserverauthenticate.cpp`: the responder's side of the encrypted handshake,
handler by handler.

* `Responder` — what the handlers take from elsewhere: the hash and the cipher, the
  private key, the torrents, the settings and the local buffers.
* `EncryptedServerAuthenticate` — the state, with two accounts: `sent`, the messages, and
  `decrypted`, the positions in the received data the handshake's cipher was run over.
* `handleYA` … `handleIA`, `onReadyRead`, and `arrive`, an `onReadyRead` for new data.
-/

namespace KTorrent

open Mse Buffer

/-- `MAX_SEA_BUF_SIZE`. -/
def maxSeaBufSize : ℕ := 608 + 20 + 20 + 8 + 4 + 2 + 512 + 2 + 68

/-- What the handlers take from elsewhere. -/
structure Responder where
  sha1 : List UInt8 → LocalBuffer 20
  rc4 : List UInt8 → ℕ → UInt8
  xb : ℕ
  /-- The info hashes of the torrents, in the order of the peer managers. -/
  infoHashes : List (LocalBuffer 20)
  unencryptedConnectionsAllowed : Bool
  memory : Memory
  verdicts : Verdicts

namespace Responder

/-- The hash that marks the end of PadA. -/
def req1 (c : Responder) (s : ℕ) : LocalBuffer 20 :=
  c.sha1 ((reqInput "req1" s c.memory.findReq1Tmp.1).take 100)

/-- `HASH('req3', S)`. -/
def req3 (c : Responder) (s : ℕ) : LocalBuffer 20 :=
  c.sha1 ((reqInput "req3" s c.memory.calculateSKeyTmp.1).take 100)

/-- `HASH('req2', SKEY)`. -/
def req2 (c : Responder) (infoHash : LocalBuffer 20) : LocalBuffer 20 :=
  c.sha1 (ascii "req2" ++ infoHash.1)

/-- `SHA1Hash::operator^`. -/
def xorHash (a b : List UInt8) : List UInt8 := List.zipWith (· ^^^ ·) a b

/-- `ServerInterface::findInfoHash(skey, info_hash)`. -/
def findInfoHash (c : Responder) (skey : List UInt8) : Option (LocalBuffer 20) :=
  c.infoHashes.find? fun infoHash => (c.req2 infoHash).1 = skey

/-- The ciphers of a connection: `enc` is made of keyB, `dec` of keyA. -/
def newRC4 (c : Responder) (s : ℕ) (infoHash : LocalBuffer 20) : RC4Encryptor :=
  RC4Encryptor.new c.rc4 (c.sha1 (encryptionKeyInput true s infoHash c.memory.processVCDec)).1
    (c.sha1 (encryptionKeyInput false s infoHash c.memory.processVCEnc)).1

/-- The message of `sendYB()`. -/
def yb (c : Responder) : List UInt8 := ybMessage c.xb c.memory

end Responder

/-- `EncryptedServerAuthenticate::State`. -/
inductive SeaState where
  | waitingForYA
  | waitingForReq1
  | foundReq1
  | foundInfoHash
  | waitForPadC
  | waitForIA
  | nonEncryptedHandshake
  deriving DecidableEq

/-- The members of the class; `buf` is what the buffer holds, `buf_size` its length. -/
structure EncryptedServerAuthenticate extends AuthenticateBase where
  state : SeaState
  buf : List UInt8
  req1Off : ℕ
  s : ℕ
  infoHash : LocalBuffer 20
  cryptoProvide : UInt32
  cryptoSelect : UInt32
  padCLen : ℕ
  iaLen : ℕ
  ourRc4 : Option RC4Encryptor
  /-- The messages sent before the BitTorrent handshake. -/
  sent : List (List UInt8)
  /-- The positions of `buf` that `our_rc4` deciphered, in the order it did. -/
  decrypted : List ℕ

namespace EncryptedServerAuthenticate

/-- The constructor. -/
def new : EncryptedServerAuthenticate :=
  { AuthenticateBase.new with
    state := .waitingForYA, buf := [], req1Off := 0, s := 0, infoHash := zeroed 20
    cryptoProvide := 0, cryptoSelect := 0, padCLen := 0, iaLen := 0, ourRc4 := none
    sent := [], decrypted := [] }

/-- `onFinish(false)` in a handler. -/
def fail (s : EncryptedServerAuthenticate) : EncryptedServerAuthenticate :=
  { s with finish := some .encrypted }

/-- `buf_size += sock->readData(buf + buf_size, ba)`; the device serves what is asked. -/
def readInto (s : EncryptedServerAuthenticate) (ba : ℕ) : EncryptedServerAuthenticate :=
  let r := s.sock.readData s.device (List.replicate ba 0) ba (some ba)
  { s with sock := r.sock, device := r.device, buf := s.buf ++ r.buf.take r.ret }

/-- `our_rc4->decrypt(buf + off, len)`. -/
def decryptAt (s : EncryptedServerAuthenticate) (e : RC4Encryptor) (off len : ℕ) :
    EncryptedServerAuthenticate :=
  { s with
    buf := s.buf.take off ++ (e.decrypt (s.buf.drop off) len).1
    ourRc4 := some (e.decrypt (s.buf.drop off) len).2
    decrypted := s.decrypted ++ List.range' off len }

/-- `ServerAuthenticate::onReadyRead()`. -/
def serverOnReadyRead (c : Responder) (s : EncryptedServerAuthenticate) :
    EncryptedServerAuthenticate :=
  { s with toAuthenticateBase := s.toAuthenticateBase.onReadyRead c.verdicts }

/-- `handleIA()`. -/
def handleIA (c : Responder) (s : EncryptedServerAuthenticate) : EncryptedServerAuthenticate :=
  if s.buf.length < s.req1Off + 54 + s.padCLen + 2 + s.iaLen then s
  else
    let s := if 0 < s.iaLen then
        { s with sock := s.sock.reinsert (s.buf.drop (s.req1Off + 54 + s.padCLen + 2)) }
      else s
    if s.cryptoSelect &&& 2 ≠ 0 then
      let s := { s with sock := s.sock.setRC4Encryptor s.ourRc4, ourRc4 := none }
      serverOnReadyRead c { s with state := .nonEncryptedHandshake }
    else if !c.unencryptedConnectionsAllowed && s.cryptoSelect &&& 1 ≠ 0 then s.fail
    else serverOnReadyRead c { s with ourRc4 := none, state := .nonEncryptedHandshake }

/-- `handlePadC()`. -/
def handlePadC (c : Responder) (s : EncryptedServerAuthenticate) : EncryptedServerAuthenticate :=
  if s.buf.length < s.req1Off + 54 + s.padCLen + 2 then s
  else
    match s.ourRc4 with
    | none => s
    | some e =>
      let off := s.req1Off + 54
      let s := s.decryptAt e off (s.padCLen + 2)
      match readUint16 s.buf (off + s.padCLen) with
      | none => s
      | some iaLen =>
        let s := { s with iaLen := iaLen.toNat }
        if s.buf.length < off + s.iaLen then { s with state := .waitForIA }
        else s.handleIA c

/-- What `processVC()` does with the 14 bytes it has deciphered. -/
def readVC (c : Responder) (s : EncryptedServerAuthenticate) (e : RC4Encryptor) (off : ℕ) :
    EncryptedServerAuthenticate :=
  if (s.buf.drop off).take 8 ≠ List.replicate 8 0 then s.fail
  else
    match readUint32 s.buf (off + 8), readUint16 s.buf (off + 12) with
    | some provide, some padCLen =>
      let s := { s with cryptoProvide := provide, padCLen := padCLen.toNat }
      if s.padCLen > 512 then s.fail
      else
        let select : UInt32 := if provide &&& 2 ≠ 0 then 2 else 1
        let (reply, e) := e.encrypt (List.replicate 8 0 ++ writeUint32 select ++ writeUint16 0)
        let s := { s with cryptoSelect := select, ourRc4 := some e, sent := s.sent ++ [reply] }
        if s.buf.length < s.req1Off + 14 + s.padCLen then { s with state := .waitForPadC }
        else s.handlePadC c
    | _, _ => s

/-- `processVC()`. -/
def processVC (c : Responder) (s : EncryptedServerAuthenticate) : EncryptedServerAuthenticate :=
  let e := s.ourRc4.getD (c.newRC4 s.s s.infoHash)
  let s := { s with ourRc4 := some e }
  if s.buf.length < s.req1Off + 40 + 14 then s
  else
    let off := s.req1Off + 40
    (s.decryptAt e off 14).readVC c (e.decrypt (s.buf.drop off) 14).2 off

/-- `calculateSKey()`. -/
def calculateSKey (c : Responder) (s : EncryptedServerAuthenticate) :
    EncryptedServerAuthenticate :=
  if s.req1Off + 40 > s.buf.length then s
  else
    let r2 := Responder.xorHash ((s.buf.drop (s.req1Off + 20)).take 20) (c.req3 s.s).1
    match c.findInfoHash r2 with
    | none => s.fail
    | some infoHash => processVC c { s with infoHash := infoHash, state := .foundInfoHash }

/-- The search of `findReq1()`: from byte 96 on, while 20 bytes and one more are there. -/
def searchReq1 (buf req1 : List UInt8) : Option ℕ :=
  (List.range' 96 (buf.length - 20 - 96)).find? fun i => (buf.drop i).take 20 = req1

/-- `findReq1()`. -/
def findReq1 (c : Responder) (s : EncryptedServerAuthenticate) : EncryptedServerAuthenticate :=
  if s.buf.length < 116 then s
  else
    match searchReq1 s.buf (c.req1 s.s).1 with
    | some i => calculateSKey c { s with state := .foundReq1, req1Off := i }
    | none => if s.buf.length > 608 then s.fail else s

/-- `handleYA()`. -/
def handleYA (c : Responder) (s : EncryptedServerAuthenticate) : EncryptedServerAuthenticate :=
  findReq1 c { s with
    sent := s.sent ++ [c.yb]
    s := dhSecret c.xb (BigInt.fromBuffer s.buf 96)
    state := .waitingForReq1 }

/-- `onReadyRead()`.  A connection that is over has no socket any more. -/
def onReadyRead (c : Responder) (s : EncryptedServerAuthenticate) : EncryptedServerAuthenticate :=
  if s.finish.isSome then s
  else
    let ba := s.sock.bytesAvailable s.device
    if ba = 0 then s.fail
    else
      let ba := if s.buf.length + ba > maxSeaBufSize then maxSeaBufSize - s.buf.length else ba
      match s.state with
      | .waitingForYA =>
        if ba ≤ 68 ∧ c.unencryptedConnectionsAllowed then
          serverOnReadyRead c { s with state := .nonEncryptedHandshake }
        else
          let s := s.readInto ba
          if 96 ≤ s.buf.length then s.handleYA c else s
      | .waitingForReq1 => (s.readInto ba).findReq1 c
      | .foundReq1 => (s.readInto ba).calculateSKey c
      | .foundInfoHash => (s.readInto ba).processVC c
      | .waitForPadC => (s.readInto ba).handlePadC c
      | .waitForIA => (s.readInto ba).handleIA c
      | .nonEncryptedHandshake => serverOnReadyRead c s

/-- Data arrives, and `onReadyRead` is called for it. -/
def arrive (c : Responder) (s : EncryptedServerAuthenticate) (chunk : List UInt8) :
    EncryptedServerAuthenticate :=
  onReadyRead c { s with device := s.device ++ chunk }

end EncryptedServerAuthenticate

end KTorrent
