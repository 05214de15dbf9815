import KTorrent.Mse.Functions

/-!
# The key agreement

Both ends of the exchange, up to what they hash: `EncryptedAuthenticate::connected` and
`handleYB` on the one side, `EncryptedServerAuthenticate::sendYB`, `findReq1`,
`calculateSKey` and `processVC` on the other.  The buffers are local variables, so what
they hold before is part of the input (`Memory`).

* `sendPublicKey` — a public key and the padding behind it.
* `initiatorInputs`, `responderInputs` — the four messages each side hashes.
* `Agreed` — each side reads the key the other sent, and both hash the same 96 bytes.
* `agreed_iff` — they do exactly when the three numbers fill their 96 bytes.
-/

namespace KTorrent.Mse

open Buffer BigEndian

/-- What the local buffers hold, and how much padding is drawn. -/
structure Memory where
  connectedTmp : LocalBuffer 608
  connectedPad : Fin 512
  sendYBTmp : LocalBuffer 608
  sendYBPad : Fin 512
  handleYBTmp : LocalBuffer 120
  handleYBEnc : LocalBuffer 120
  handleYBDec : LocalBuffer 120
  findReq1Tmp : LocalBuffer 100
  calculateSKeyTmp : LocalBuffer 100
  processVCEnc : LocalBuffer 120
  processVCDec : LocalBuffer 120

/-- The messages that are hashed with `S` in them. -/
structure HashInputs where
  req1 : List UInt8
  req3 : List UInt8
  keyA : List UInt8
  keyB : List UInt8

/-- `connected()` and `sendYB()`: the key, and padding from what is behind it. -/
def sendPublicKey (pub : ℕ) (tmp : LocalBuffer 608) (pad : Fin 512) : List UInt8 :=
  (BigInt.toBuffer pub tmp.1 0 96).1.take (608 - pad)

/-- A message `req1` or `req3` with `S`, in a buffer of at least 100 bytes. -/
def reqInput (req : String) (s : ℕ) (tmp : List UInt8) : List UInt8 :=
  (BigInt.toBuffer s (overwrite tmp 0 (ascii req)) 4 96).1

/-- `handleYB()`: one buffer serves `req1`, then `req2`, then `req3`. -/
def initiatorInputs (xa : ℕ) (yb : List UInt8) (infoHash : LocalBuffer 20) (m : Memory) :
    HashInputs :=
  let s := dhSecret xa (BigInt.fromBuffer yb 96)
  let tmp := reqInput "req1" s m.handleYBTmp.1
  let tmp2 := overwrite (overwrite tmp 0 (ascii "req2")) 4 infoHash.1
  { req1 := tmp.take 100
    req3 := (reqInput "req3" s tmp2).take 100
    keyA := encryptionKeyInput true s infoHash m.handleYBEnc
    keyB := encryptionKeyInput false s infoHash m.handleYBDec }

/-- `findReq1()`, `calculateSKey()` and `processVC()`, each with a buffer of its own. -/
def responderInputs (xb : ℕ) (ya : List UInt8) (infoHash : LocalBuffer 20) (m : Memory) :
    HashInputs :=
  let s := dhSecret xb (BigInt.fromBuffer ya 96)
  { req1 := (reqInput "req1" s m.findReq1Tmp.1).take 100
    req3 := (reqInput "req3" s m.calculateSKeyTmp.1).take 100
    keyA := encryptionKeyInput true s infoHash m.processVCDec
    keyB := encryptionKeyInput false s infoHash m.processVCEnc }

/-- The 96 bytes of `S` in each message. -/
def HashInputs.encodings (h : HashInputs) : List (List UInt8) :=
  [h.req1, h.req3, h.keyA, h.keyB].map fun input => (input.drop 4).take 96

/-- The responder's first message, as the initiator receives it. -/
def ybMessage (xb : ℕ) (m : Memory) : List UInt8 :=
  sendPublicKey (publicKey xb) m.sendYBTmp m.sendYBPad

/-- The initiator's first message. -/
def yaMessage (xa : ℕ) (m : Memory) : List UInt8 :=
  sendPublicKey (publicKey xa) m.connectedTmp m.connectedPad

/-- **The law**: the public keys arrive, `S` is encoded as its 96 bytes in every message
hashed, and the two sides hash the same four messages. -/
structure Agreed (xa xb : ℕ) (infoHash : LocalBuffer 20) (m : Memory) : Prop where
  ya : BigInt.fromBuffer (yaMessage xa m) 96 = publicKey xa
  yb : BigInt.fromBuffer (ybMessage xb m) 96 = publicKey xb
  initiator : ∀ e ∈ (initiatorInputs xa (ybMessage xb m) infoHash m).encodings,
    e = padded 96 (publicKey (xa * xb))
  responder : ∀ e ∈ (responderInputs xb (yaMessage xa m) infoHash m).encodings,
    e = padded 96 (publicKey (xa * xb))
  same : initiatorInputs xa (ybMessage xb m) infoHash m
    = responderInputs xb (yaMessage xa m) infoHash m

/-! ## The public keys -/

/-- A public key is read back exactly when it fills its field. -/
theorem fromBuffer_sendPublicKey_iff (priv : ℕ) (tmp : LocalBuffer 608) (pad : Fin 512) :
    BigInt.fromBuffer (sendPublicKey (publicKey priv) tmp pad) 96 = publicKey priv ↔
      Fills (publicKey priv) := by
  have hle : (minimal (publicKey priv)).length ≤ 96 := length_minimal_le_iff.mpr (publicKey_lt priv)
  have hpad := pad.2
  have htmp := tmp.2
  rw [BigInt.fromBuffer, sendPublicKey, BigInt.toBuffer, overwrite_zero, List.take_take,
    min_eq_left (by omega)]
  refine number_take_eq_iff (publicKey_ne_zero priv) (publicKey_lt priv) ?_
  rw [List.length_append, List.length_drop]
  omega

/-! ## The secret -/

variable {s : ℕ}

/-- What stands behind the first four bytes of a message. -/
theorem drop_toBuffer {buf : List UInt8} (hbuf : 4 ≤ buf.length) :
    (BigInt.toBuffer s buf 4 96).1.drop 4 = minimal s ++ buf.drop (4 + (minimal s).length) :=
  drop_overwrite hbuf

/-- The field at byte 4 of a buffer of 100 bytes or more holds the number exactly when the
number fills it. -/
theorem field_iff (hs : s ≠ 0) (hlt : s < 256 ^ 96) {buf : List UInt8} (hbuf : 100 ≤ buf.length) :
    ((BigInt.toBuffer s buf 4 96).1.drop 4).take 96 = padded 96 s ↔ Fills s := by
  have hle : (minimal s).length ≤ 96 := length_minimal_le_iff.mpr hlt
  rw [drop_toBuffer (by omega)]
  refine take_eq_padded_iff hs hlt ?_
  rw [List.length_append, List.length_drop]
  omega

/-- A number that fills its field is written over all of it. -/
theorem toBuffer_take (hlt : s < 256 ^ 96) (hs : Fills s) {buf : List UInt8}
    (hbuf : 100 ≤ buf.length) :
    (BigInt.toBuffer s buf 4 96).1.take 100 = buf.take 4 ++ minimal s := by
  have hlen : (minimal s).length = 96 :=
    le_antisymm (length_minimal_le_iff.mpr hlt) (lt_length_minimal_iff.mpr hs)
  have hfour : (buf.take 4).length = 4 := by simp; omega
  rw [BigInt.toBuffer, overwrite]
  exact List.take_left' (by rw [List.length_append, hfour, hlen])

theorem length_reqTmp {tmp : List UInt8} (h : 100 ≤ tmp.length) {req : String}
    (hreq : (ascii req).length = 4) : (overwrite tmp 0 (ascii req)).length = tmp.length :=
  length_overwrite (by omega)

/-- The field of `S` in `req1` and `req3`. -/
theorem reqInput_field_iff (hs : s ≠ 0) (hlt : s < 256 ^ 96) {tmp : List UInt8}
    (htmp : 100 ≤ tmp.length) {req : String} (hreq : (ascii req).length = 4) :
    (((reqInput req s tmp).take 100).drop 4).take 96 = padded 96 s ↔ Fills s := by
  rw [List.drop_take, List.take_take]
  exact field_iff hs hlt (by rw [length_reqTmp htmp hreq]; exact htmp)

/-- The message `req1` or `req3`, when `S` fills its field. -/
theorem reqInput_eq (hlt : s < 256 ^ 96) (hs : Fills s) {tmp : List UInt8}
    (htmp : 100 ≤ tmp.length) {req : String} (hreq : (ascii req).length = 4) :
    (reqInput req s tmp).take 100 = ascii req ++ minimal s := by
  rw [reqInput, toBuffer_take hlt hs (by rw [length_reqTmp htmp hreq]; exact htmp), overwrite_zero,
    List.take_left' hreq]

/-- The buffer of `EncryptionKey` before `S` is stored. -/
theorem keyTmp_spec (a : Bool) (buf : LocalBuffer 120) :
    (overwrite (overwrite buf.1 0 (ascii "key")) 3 (if a then ascii "A" else ascii "B")).length
        = 120 ∧
      (overwrite (overwrite buf.1 0 (ascii "key")) 3 (if a then ascii "A" else ascii "B")).take 4
        = ascii "key" ++ if a then ascii "A" else ascii "B" := by
  have hbuf := buf.2
  have hkey : (ascii "key").length = 3 := by decide
  have hletter : (if a then ascii "A" else ascii "B").length = 1 := by cases a <;> decide
  have hlen : (overwrite buf.1 0 (ascii "key")).length = 120 := by
    rw [length_overwrite (by omega), hbuf]
  refine ⟨by rw [length_overwrite (by omega), hlen], ?_⟩
  have hthree : (overwrite buf.1 0 (ascii "key")).take 3 = ascii "key" := by
    rw [overwrite_zero, List.take_left' hkey]
  rw [overwrite, hthree]
  exact List.take_left' (by rw [List.length_append, hkey, hletter])

/-- The first 100 bytes of the message for a key are what `toBuffer` left. -/
theorem encryptionKeyInput_take (hlt : s < 256 ^ 96) (a : Bool) (skey : LocalBuffer 20)
    (buf : LocalBuffer 120) :
    ∃ tmp : List UInt8, tmp.length = 120 ∧
      tmp.take 4 = (ascii "key" ++ if a then ascii "A" else ascii "B") ∧
      encryptionKeyInput a s skey buf = (BigInt.toBuffer s tmp 4 96).1.take 100 ++ skey.1 := by
  obtain ⟨hlen, hfour⟩ := keyTmp_spec a buf
  refine ⟨_, hlen, hfour, ?_⟩
  have hle : (minimal s).length ≤ 96 := length_minimal_le_iff.mpr hlt
  have hskey := skey.2
  rw [encryptionKeyInput]
  generalize overwrite (overwrite buf.1 0 (ascii "key")) 3 (if a then ascii "A" else ascii "B")
    = tmp at hlen
  have hfull : (BigInt.toBuffer s tmp 4 96).1.length = 120 := by
    rw [BigInt.toBuffer, length_overwrite (by omega), hlen]
  rw [overwrite]
  refine List.take_of_length_le ?_ |>.trans ?_
  · simp only [List.length_append, List.length_take, List.length_drop]
    omega
  · rw [hskey, List.drop_eq_nil_of_le (by omega), List.append_nil]

/-- The field of `S` in the message for a key. -/
theorem encryptionKeyInput_field_iff (hs : s ≠ 0) (hlt : s < 256 ^ 96) (a : Bool)
    (skey : LocalBuffer 20) (buf : LocalBuffer 120) :
    ((encryptionKeyInput a s skey buf).drop 4).take 96 = padded 96 s ↔ Fills s := by
  obtain ⟨tmp, hlen, -, heq⟩ := encryptionKeyInput_take hlt a skey buf
  have hle : (minimal s).length ≤ 96 := length_minimal_le_iff.mpr hlt
  have hfull : (BigInt.toBuffer s tmp 4 96).1.length = 120 := by
    rw [BigInt.toBuffer, length_overwrite (by omega), hlen]
  have htake : ((BigInt.toBuffer s tmp 4 96).1.take 100).length = 100 := by simp [hfull]
  rw [heq, List.drop_append_of_le_length (by omega),
    List.take_append_of_le_length (by rw [List.length_drop]; omega), List.drop_take, List.take_take]
  exact field_iff hs hlt (by omega)

/-- The message for a key, when `S` fills its field. -/
theorem encryptionKeyInput_eq (hlt : s < 256 ^ 96) (hs : Fills s) (a : Bool)
    (skey : LocalBuffer 20) (buf : LocalBuffer 120) :
    encryptionKeyInput a s skey buf
      = (ascii "key" ++ if a then ascii "A" else ascii "B") ++ minimal s ++ skey.1 := by
  obtain ⟨tmp, hlen, hfour, heq⟩ := encryptionKeyInput_take hlt a skey buf
  rw [heq, toBuffer_take hlt hs (by omega), hfour]

/-! ## The agreement -/

variable {infoHash : LocalBuffer 20} {m : Memory} {xa xb : ℕ} {ya yb : List UInt8}

/-- The buffer of `handleYB` keeps its length. -/
theorem length_handleYBTmp (hlt : s < 256 ^ 96) :
    (overwrite (overwrite (reqInput "req1" s m.handleYBTmp.1) 0 (ascii "req2")) 4
      infoHash.1).length = 120 := by
  have hle : (minimal s).length ≤ 96 := length_minimal_le_iff.mpr hlt
  have htmp := m.handleYBTmp.2
  have hhash := infoHash.2
  have hreq1 : (ascii "req1").length = 4 := by decide
  have hreq2 : (ascii "req2").length = 4 := by decide
  have h1 : (reqInput "req1" s m.handleYBTmp.1).length = 120 := by
    have hfirst : (overwrite m.handleYBTmp.1 0 (ascii "req1")).length = 120 := by
      rw [length_reqTmp (by omega) hreq1, htmp]
    rw [reqInput, BigInt.toBuffer, length_overwrite (by omega), hfirst]
  have h2 : (overwrite (reqInput "req1" s m.handleYBTmp.1) 0 (ascii "req2")).length = 120 := by
    rw [length_overwrite (by omega), h1]
  rw [length_overwrite (by omega), h2]

/-- The initiator encodes `S` in all four messages exactly when `S` fills its field. -/
theorem initiatorInputs_iff {e : ℕ} (hs : dhSecret xa (BigInt.fromBuffer yb 96) = e) (hne : e ≠ 0)
    (hlt : e < 256 ^ 96) :
    (∀ x ∈ (initiatorInputs xa yb infoHash m).encodings, x = padded 96 e) ↔ Fills e := by
  have htmp := m.handleYBTmp.2
  simp only [HashInputs.encodings, initiatorInputs, hs, List.map_cons, List.map_nil,
    List.forall_mem_cons, List.not_mem_nil, false_imp_iff, implies_true, and_true]
  rw [reqInput_field_iff hne hlt (by omega) (by decide),
    reqInput_field_iff hne hlt (by rw [length_handleYBTmp hlt]; decide) (by decide),
    encryptionKeyInput_field_iff hne hlt, encryptionKeyInput_field_iff hne hlt]
  simp

/-- So does the responder. -/
theorem responderInputs_iff {e : ℕ} (hs : dhSecret xb (BigInt.fromBuffer ya 96) = e) (hne : e ≠ 0)
    (hlt : e < 256 ^ 96) :
    (∀ x ∈ (responderInputs xb ya infoHash m).encodings, x = padded 96 e) ↔ Fills e := by
  have htmp := m.findReq1Tmp.2
  have htmp' := m.calculateSKeyTmp.2
  simp only [HashInputs.encodings, responderInputs, hs, List.map_cons, List.map_nil,
    List.forall_mem_cons, List.not_mem_nil, false_imp_iff, implies_true, and_true]
  rw [reqInput_field_iff hne hlt (by omega) (by decide),
    reqInput_field_iff hne hlt (by omega) (by decide),
    encryptionKeyInput_field_iff hne hlt, encryptionKeyInput_field_iff hne hlt]
  simp

/-- Two sides that have the same `S`, which fills its field, hash the same messages. -/
theorem inputs_same {e : ℕ} (ha : dhSecret xa (BigInt.fromBuffer yb 96) = e)
    (hb : dhSecret xb (BigInt.fromBuffer ya 96) = e) (hlt : e < 256 ^ 96) (hfills : Fills e) :
    initiatorInputs xa yb infoHash m = responderInputs xb ya infoHash m := by
  have htmp : 100 ≤ m.handleYBTmp.1.length := by rw [m.handleYBTmp.2]; decide
  have htmp1 : 100 ≤ m.findReq1Tmp.1.length := m.findReq1Tmp.2.ge
  have htmp3 : 100 ≤ m.calculateSKeyTmp.1.length := m.calculateSKeyTmp.2.ge
  have htmp2 : 100 ≤ (overwrite (overwrite (reqInput "req1" e m.handleYBTmp.1) 0 (ascii "req2")) 4
      infoHash.1).length := by rw [length_handleYBTmp hlt]; decide
  have hreq1 : (ascii "req1").length = 4 := by decide
  have hreq3 : (ascii "req3").length = 4 := by decide
  simp only [initiatorInputs, responderInputs, ha, hb, encryptionKeyInput_eq hlt hfills,
    reqInput_eq hlt hfills htmp hreq1, reqInput_eq hlt hfills htmp1 hreq1,
    reqInput_eq hlt hfills htmp2 hreq3, reqInput_eq hlt hfills htmp3 hreq3]

/-- **Key agreement, exactly.**  Whatever the local buffers held, the two sides agree if
and only if `Ya`, `Yb` and `S` have no leading zero byte; and `toBuffer` writes a number
with zeros in front only if it needs none, or is zero in a zeroed buffer. -/
theorem agreed_iff (xa xb : ℕ) (infoHash : LocalBuffer 20) (m : Memory) :
    (Agreed xa xb infoHash m ↔
      Fills (publicKey xa) ∧ Fills (publicKey xb) ∧ Fills (publicKey (xa * xb))) ∧
    ∀ (v : ℕ) (buf : LocalBuffer 96), (BigInt.toBuffer v buf.1 0 96).1 = padded 96 v ↔
      Fills v ∨ (v = 0 ∧ buf.1 = List.replicate 96 0) := by
  refine ⟨?_, toBuffer_eq_padded_iff⟩
  have hne := publicKey_ne_zero (xa * xb)
  have hlt := publicKey_lt (xa * xb)
  -- the secrets, once the public keys have arrived
  have hsecretB : ∀ ya, BigInt.fromBuffer ya 96 = publicKey xa →
      dhSecret xb (BigInt.fromBuffer ya 96) = publicKey (xa * xb) := fun ya hya => by
    rw [hya, dhSecret_publicKey]
  have hsecretA : ∀ yb, BigInt.fromBuffer yb 96 = publicKey xb →
      dhSecret xa (BigInt.fromBuffer yb 96) = publicKey (xa * xb) := fun yb hyb => by
    rw [hyb, dhSecret_publicKey, Nat.mul_comm]
  constructor
  · intro h
    exact ⟨(fromBuffer_sendPublicKey_iff xa _ _).mp h.ya, (fromBuffer_sendPublicKey_iff xb _ _).mp h.yb,
      (initiatorInputs_iff (hsecretA _ h.yb) hne hlt).mp h.initiator⟩
  · rintro ⟨hya, hyb, hs⟩
    have harriveA := (fromBuffer_sendPublicKey_iff xa m.connectedTmp m.connectedPad).mpr hya
    have harriveB := (fromBuffer_sendPublicKey_iff xb m.sendYBTmp m.sendYBPad).mpr hyb
    exact {
      ya := harriveA
      yb := harriveB
      initiator := (initiatorInputs_iff (hsecretA _ harriveB) hne hlt).mpr hs
      responder := (responderInputs_iff (hsecretB _ harriveA) hne hlt).mpr hs
      same := inputs_same (hsecretA _ harriveB) (hsecretB _ harriveA) hlt hs }

/-- A buffer of zeros. -/
def zeroed (n : ℕ) : LocalBuffer n := ⟨List.replicate n 0, List.length_replicate⟩

/-- All buffers hold zeros, and no padding is cut off. -/
def zeroedMemory : Memory :=
  ⟨zeroed 608, 0, zeroed 608, 0, zeroed 120, zeroed 120, zeroed 120, zeroed 100, zeroed 100,
    zeroed 120, zeroed 120⟩

/-- With the exponent 759 the initiator sends `2 ^ 759`, whose first byte is zero, and the
responder reads another number. -/
theorem short_publicKey_lost :
    ¬ ∀ (xa xb : ℕ) (infoHash : LocalBuffer 20) (m : Memory), Agreed xa xb infoHash m := by
  intro h
  have hya := (h 759 1 (zeroed 20) zeroedMemory).ya
  rw [yaMessage, fromBuffer_sendPublicKey_iff] at hya
  revert hya
  decide +kernel

end KTorrent.Mse
