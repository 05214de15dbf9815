import KTorrent.Mse.AnswererStream

/-!
# The stages of the initiator's handshake

What each handler of the initiator does when the answer has arrived up to some byte, as
one equation for each: how it changes the state, and which handler or which state comes
next.

* `Loaded` — the data is in the buffer, as far as it may be.
* `Searching`, `Found`, `VCDone` — what is known before `findVC`, `handleCryptoSelect` and
  `handlePadD`.
* `handlePadD_over`, `handlePadD_all`, `handleCryptoSelect_eq`, `findVC_eq`, `handleYB_eq`.
-/

namespace KTorrent.EncryptedAuthenticate

open Mse Runs EncryptedPacketSocket

variable {c : Opener} {a : Answerer c} {m t : ℕ} {s : EncryptedAuthenticate}

/-- Of the `t` bytes that have arrived the first `m` are in the buffer, and the others in
the device; nothing is put back or handed over. -/
structure Loaded (a : Answerer c) (m t : ℕ) (s : EncryptedAuthenticate) : Prop where
  le : t ≤ a.stream.length
  pending : s.finish = none
  sound : s.sock.Sound
  unread : s.sock.unread = []
  enc : s.sock.enc = none
  handshake : s.handshake.length = 68
  received : s.bytesOfHandshakeReceived = 0
  handed : s.handed = []
  length : s.buf.length = min t m
  device : s.device = (a.stream.take t).drop (min t m)

/-- The constant is looked for. -/
structure Searching (a : Answerer c) (s : EncryptedAuthenticate) : Prop where
  enc : s.enc = a.keys.1
  dec : s.dec = a.keys.2
  rc4 : ∃ e, s.ourRc4 = some e ∧ e.dec = a.ciphers.dec
  padDLen : s.padDLen = 0
  buf : s.buf = a.stream.take s.buf.length
  decrypted : s.decrypted = []

/-- The constant is found; nothing is deciphered. -/
structure Found (a : Answerer c) (s : EncryptedAuthenticate) : Prop where
  vcOff : s.vcOff = a.vcAt
  rc4 : ∃ e, s.ourRc4 = some e ∧ e.dec = a.ciphers.dec
  padDLen : s.padDLen = 0
  buf : s.buf = a.stream.take s.buf.length
  decrypted : s.decrypted = []

/-- The bytes up to PadD are deciphered. -/
structure VCDone (a : Answerer c) (s : EncryptedAuthenticate) : Prop where
  vcOff : s.vcOff = a.vcAt
  select : s.cryptoSelect = a.cryptoSelect
  padDLen : s.padDLen = a.padD.length
  rc4 : ∃ e, s.ourRc4 = some e ∧ e.dec = a.ciphers.dec.advance 14
  rest : s.buf.drop (a.vcAt + 14) = (a.stream.take s.buf.length).drop (a.vcAt + 14)
  decrypted : s.decrypted = List.range' a.vcAt 14

/-! ## Deciphering a piece of the buffer -/

section
variable (e : RC4Encryptor) {off len : ℕ}

theorem decryptAt_buf :
    (s.decryptAt e off len).buf
      = s.buf.take off ++ e.dec.apply ((s.buf.drop off).take len) ++ s.buf.drop (off + len) := by
  rw [decryptAt]
  simp only [RC4Encryptor.decrypt, List.drop_drop, List.append_assoc]

@[simp] theorem decryptAt_length : (s.decryptAt e off len).buf.length = s.buf.length := by
  rw [decryptAt_buf e]
  simp
  omega

/-- What is behind the piece stays. -/
theorem decryptAt_drop (h : off + len ≤ s.buf.length) :
    (s.decryptAt e off len).buf.drop (off + len) = s.buf.drop (off + len) := by
  rw [decryptAt_buf e]
  exact List.drop_left' (by simp; omega)

end

/-! ## `handlePadD` -/

/-- RC4 it is. -/
theorem VCDone.selected (h : VCDone a s) :
    ¬ (s.cryptoSelect &&& 1 = 0 ∧ s.cryptoSelect &&& 2 = 0) ∧ ¬ s.cryptoSelect &&& 1 ≠ 0 := by
  rw [h.select]
  exact ⟨fun hnone => a.rc4 hnone.2, not_not.mpr a.notPlain⟩

/-- PadD is deciphered, whether or not it has come. -/
theorem handlePadD_decrypted (h : VCDone a s) :
    (s.handlePadD c).decrypted = List.range' a.vcAt (14 + a.padD.length) ∧
      (s.handlePadD c).buf.length = s.buf.length ∧
      (s.handlePadD c).state = .normalHandshake := by
  obtain ⟨e, he, -⟩ := h.rc4
  have hdec : s.decrypted ++ List.range' (s.vcOff + 14) s.padDLen
      = List.range' a.vcAt (14 + a.padD.length) := by
    rw [h.decrypted, h.vcOff, h.padDLen, List.range'_append_1]
  obtain ⟨hnone, hrc4⟩ := h.selected
  obtain ⟨s₁, hs₁⟩ : ∃ s₁, s₁ = s.decryptAt e (s.vcOff + 14) s.padDLen := ⟨_, rfl⟩
  have hselect : s₁.cryptoSelect = s.cryptoSelect := by rw [hs₁]; rfl
  have hlength : s₁.buf.length = s.buf.length := by rw [hs₁, decryptAt_length]
  have hdec₁ : s₁.decrypted = List.range' a.vcAt (14 + a.padD.length) := by
    rw [hs₁, ← hdec]
    rfl
  rw [handlePadD, he]
  simp only [← hs₁, hselect, if_neg hnone, if_neg hrc4]
  split
  · exact ⟨hdec₁, hlength, rfl⟩
  · exact ⟨hdec₁, hlength, rfl⟩

/-- What `handlePadD` leaves to the BitTorrent handshake when something behind PadD has
come: all of it, put back or still in the device, and the cipher at its first byte. -/
theorem handlePadD_over (hl : Loaded a m t s) (h : VCDone a s) (hn : a.payloadAt < s.buf.length) :
    ∃ (e : RC4Encryptor) (b : AuthenticateBase),
      e.dec = a.ciphers.dec.advance (14 + a.padD.length) ∧
      AuthenticateBase.Handing (some e) ((a.stream.take t).drop a.payloadAt) b ∧
      b.finish = none ∧ b.bytesOfHandshakeReceived = 0 ∧ b.handed = [] ∧
      b.sock.unread = (a.stream.take s.buf.length).drop a.payloadAt ∧
      (s.handlePadD c).toAuthenticateBase = b.onReadyRead c.verdicts := by
  obtain ⟨e, he, hdec⟩ := h.rc4
  have hat : a.payloadAt = a.vcAt + 14 + a.padD.length := rfl
  have hoff : s.vcOff + 14 + s.padDLen = a.payloadAt := by rw [h.vcOff, h.padDLen, hat]
  obtain ⟨hnone, hrc4⟩ := h.selected
  have hrest : (s.decryptAt e (s.vcOff + 14) s.padDLen).buf.drop a.payloadAt
      = (a.stream.take s.buf.length).drop a.payloadAt := by
    rw [← hoff, decryptAt_drop e (by omega), ← List.drop_drop, h.vcOff, h.rest, List.drop_drop]
  obtain ⟨s₁, hs₁⟩ : ∃ s₁, s₁ = s.decryptAt e (s.vcOff + 14) s.padDLen := ⟨_, rfl⟩
  rw [← hs₁] at hrest
  have hselect : s₁.cryptoSelect = s.cryptoSelect := by rw [hs₁]; rfl
  have hlength : s₁.buf.length = s.buf.length := by rw [hs₁, decryptAt_length]
  have hbase : s₁.toAuthenticateBase = s.toAuthenticateBase := by rw [hs₁]; rfl
  have hsock : s₁.sock = s.sock := congrArg (·.sock) hbase
  obtain ⟨e₁, he₁, hdec₁⟩ : ∃ e₁, s₁.ourRc4 = some e₁ ∧
      e₁.dec = a.ciphers.dec.advance (14 + a.padD.length) := by
    refine ⟨(e.decrypt (s.buf.drop (s.vcOff + 14)) s.padDLen).2, by rw [hs₁]; rfl, ?_⟩
    rw [RC4Encryptor.decrypt_dec, hdec, h.padDLen, KeyStream.advance_advance]
  obtain ⟨hsound, hunread, henc⟩ := reinsert_spec (s := s.sock.setRC4Encryptor (some e₁)) hl.sound
    ((a.stream.take s.buf.length).drop a.payloadAt)
  have hunread' : ((s.sock.setRC4Encryptor (some e₁)).reinsert
      ((a.stream.take s.buf.length).drop a.payloadAt)).unread
        = (a.stream.take s.buf.length).drop a.payloadAt := by
    rw [hunread]
    show s.sock.unread ++ _ = _
    rw [hl.unread, List.nil_append]
  refine ⟨e₁, { s.toAuthenticateBase with
    sock := (s.sock.setRC4Encryptor (some e₁)).reinsert
      ((a.stream.take s.buf.length).drop a.payloadAt) },
    hdec₁, ?_, hl.pending, hl.received, hl.handed, hunread', ?_⟩
  · exact {
      sound := hsound
      handshake := hl.handshake
      enc := by
        show EncryptedPacketSocket.enc _ = advance (some e₁) s.handed.length
        rw [henc, hl.handed]
        rfl
      le := by show s.handed.length ≤ _; rw [hl.handed]; exact Nat.zero_le _
      handed := by
        show s.handed = decipher _ (List.take s.handed.length _)
        rw [hl.handed]
        rfl
      rest := by
        show EncryptedPacketSocket.unread _ ++ s.device = List.drop s.handed.length _
        have hlen := hl.length
        have hle := hl.le
        rw [hl.handed, List.length_nil, List.drop_zero, hunread', hl.device, ← hlen]
        conv_rhs => rw [Pieces.take_eq_append_drop_take (l := a.stream)
          (show s.buf.length ≤ t by omega)]
        rw [List.drop_append_of_le_length (by rw [List.length_take]; omega)]
      received := .inl hl.received }
  · rw [handlePadD, he]
    simp only [← hs₁, hselect, if_neg hnone, if_neg hrc4, hlength, hoff, hrest, hsock]
    rw [if_pos hn]
    simp only [baseOnReadyRead, he₁, hbase]

/-- Nothing behind PadD is in the buffer: nothing is put back. -/
theorem handlePadD_all (hl : Loaded a m t s) (h : VCDone a s)
    (hn : s.buf.length = a.payloadAt) :
    ∃ (e : RC4Encryptor) (b : AuthenticateBase),
      e.dec = a.ciphers.dec.advance (14 + a.padD.length) ∧
      AuthenticateBase.Handing (some e) ((a.stream.take t).drop a.payloadAt) b ∧
      b.finish = none ∧ b.sock.unread = [] ∧ (s.handlePadD c).toAuthenticateBase = b := by
  obtain ⟨e, he, hdec⟩ := h.rc4
  have hoff : s.vcOff + 14 + s.padDLen = a.payloadAt := by
    rw [h.vcOff, h.padDLen, Answerer.payloadAt]
  obtain ⟨hnone, hrc4⟩ := h.selected
  have hlen := hl.length
  refine ⟨(e.decrypt (s.buf.drop (s.vcOff + 14)) s.padDLen).2, { s.toAuthenticateBase with
    sock := s.sock.setRC4Encryptor
      (some (e.decrypt (s.buf.drop (s.vcOff + 14)) s.padDLen).2) }, ?_, ?_, hl.pending, hl.unread, ?_⟩
  · rw [RC4Encryptor.decrypt_dec, hdec, h.padDLen, KeyStream.advance_advance]
  · exact {
      sound := hl.sound
      handshake := hl.handshake
      enc := by
        show some _ = advance (some _) s.handed.length
        rw [hl.handed]
        rfl
      le := by show s.handed.length ≤ _; rw [hl.handed]; exact Nat.zero_le _
      handed := by
        show s.handed = decipher _ (List.take s.handed.length _)
        rw [hl.handed]
        rfl
      rest := by
        show s.sock.unread ++ s.device = List.drop s.handed.length _
        rw [hl.handed, List.length_nil, List.drop_zero, hl.unread, List.nil_append, hl.device,
          ← hlen, hn]
      received := .inl hl.received }
  · rw [handlePadD, he]
    have hselect : (s.decryptAt e (s.vcOff + 14) s.padDLen).cryptoSelect = s.cryptoSelect := rfl
    simp only [hselect, if_neg hnone, if_neg hrc4, hoff, decryptAt_length, hn, lt_irrefl, if_false]
    rfl

/-! ## `handleCryptoSelect` -/

theorem handleCryptoSelect_short (h : Found a s) (hn : s.buf.length ≤ a.vcAt + 14) :
    s.handleCryptoSelect c = s := by
  rw [handleCryptoSelect, h.vcOff]
  exact if_pos hn

/-- What `handleCryptoSelect` makes of the 14 bytes, when they are those of a responder. -/
theorem readVC_eq {select : UInt32} {len : UInt16}
    (hzero : (s.buf.drop s.vcOff).take 8 = List.replicate 8 0)
    (hselect : readUint32 s.buf (s.vcOff + 8) = some select)
    (hpad : readUint16 s.buf (s.vcOff + 12) = some len) (hlen : len.toNat ≤ 512) :
    s.readVC c =
      if ¬ s.vcOff + 14 + len.toNat < s.buf.length then
        { s with
          cryptoSelect := select
          padDLen := len.toNat
          endOfCryptoHandshake := s.vcOff + 14 + len.toNat
          state := .waitForPadD }
      else handlePadD c { s with
          cryptoSelect := select
          padDLen := len.toNat
          endOfCryptoHandshake := s.vcOff + 14 + len.toNat } := by
  rw [readVC, if_neg (not_not.mpr hzero)]
  simp only [hselect, hpad]
  rw [if_neg (not_lt.mpr hlen)]

/-- The constant, `crypto_select` and the length of PadD are deciphered; then it is the turn
of PadD, unless nothing behind it is in the buffer. -/
theorem handleCryptoSelect_eq (hl : Loaded a m t s) (h : Found a s)
    (hn : a.vcAt + 14 < s.buf.length) :
    ∃ s₁, VCDone a s₁ ∧ Loaded a m t s₁ ∧ s₁.buf.length = s.buf.length ∧
      s.handleCryptoSelect c = if ¬ a.payloadAt < s.buf.length
        then { s₁ with state := .waitForPadD } else s₁.handlePadD c := by
  obtain ⟨e, he, hdec⟩ := h.rc4
  have hpiece : e.dec.apply ((s.buf.drop a.vcAt).take 14) = a.vc := by
    have hdrop := a.stream_drop 0
    rw [Nat.add_zero, KeyStream.advance_zero, List.drop_zero] at hdrop
    rw [h.buf, List.drop_take, List.take_take, min_eq_left (by omega), hdrop,
      ← KeyStream.apply_take, hdec, KeyStream.apply_apply, Answerer.plain, List.append_assoc]
    exact List.take_left' a.length_vc
  obtain ⟨s₀, hs₀⟩ : ∃ s₀, s₀ = s.decryptAt e s.vcOff 14 := ⟨_, rfl⟩
  have hoff : s₀.vcOff = a.vcAt := by rw [hs₀]; exact h.vcOff
  have hbuf : s₀.buf = s.buf.take a.vcAt ++ a.vc ++ s.buf.drop (a.vcAt + 14) := by
    rw [hs₀, decryptAt_buf, h.vcOff, hpiece]
  have hlength : s₀.buf.length = s.buf.length := by rw [hs₀, decryptAt_length]
  have hpre : (s.buf.take a.vcAt).length = a.vcAt := by simp; omega
  have hzero : (s₀.buf.drop s₀.vcOff).take 8 = List.replicate 8 0 := by
    rw [hbuf, hoff, List.append_assoc, List.drop_left' hpre]
    rfl
  have hselect : readUint32 s₀.buf (s₀.vcOff + 8) = some a.cryptoSelect := by
    have hp : (s.buf.take a.vcAt ++ List.replicate 8 0).length = a.vcAt + 8 := by
      rw [List.length_append, hpre, List.length_replicate]
    rw [hbuf, hoff, Answerer.vc, ← hp]
    simp only [List.append_assoc]
    rw [← List.append_assoc (s.buf.take a.vcAt)]
    exact readUint32_writeUint32 _ _ _
  have hpad : readUint16 s₀.buf (s₀.vcOff + 12) = some (UInt16.ofNat a.padD.length) := by
    have hp : (s.buf.take a.vcAt ++ (List.replicate 8 0 ++ writeUint32 a.cryptoSelect)).length
        = a.vcAt + 12 := by
      rw [List.length_append, hpre]
      simp
    rw [hbuf, hoff, Answerer.vc, ← hp, ← List.append_assoc (s.buf.take a.vcAt), List.append_assoc]
    exact readUint16_writeUint16 _ _ _
  have hle := a.padD_le
  have hpadLen : (UInt16.ofNat a.padD.length).toNat = a.padD.length := by
    rw [UInt16.toNat_ofNat']
    omega
  have hrest : s₀.buf.drop (a.vcAt + 14) = s.buf.drop (a.vcAt + 14) := by
    rw [hs₀, h.vcOff, decryptAt_drop e hn.le]
  have hproc : s.handleCryptoSelect c = s₀.readVC c := by
    have hlong : ¬ s.vcOff + 14 ≥ s.buf.length := by rw [h.vcOff]; omega
    rw [handleCryptoSelect, if_neg hlong, he, hs₀]
  refine ⟨{ s₀ with
    cryptoSelect := a.cryptoSelect
    padDLen := a.padD.length
    endOfCryptoHandshake := a.payloadAt }, ?_, ?_, hlength, ?_⟩
  · exact {
      vcOff := hoff
      select := rfl
      padDLen := rfl
      rc4 := by
        refine ⟨(e.decrypt (s.buf.drop s.vcOff) 14).2, by rw [hs₀]; rfl, ?_⟩
        rw [RC4Encryptor.decrypt_dec, hdec]
      rest := by
        show s₀.buf.drop _ = (a.stream.take s₀.buf.length).drop _
        rw [hrest, hlength, ← h.buf]
      decrypted := by
        show s₀.decrypted = _
        rw [hs₀]
        show s.decrypted ++ List.range' s.vcOff 14 = _
        rw [h.decrypted, h.vcOff]
        rfl }
  · subst hs₀
    exact { hl with length := hlength.trans hl.length }
  · rw [hproc, readVC_eq hzero hselect hpad (by omega), hpadLen, hoff, hlength]
    rfl

/-! ## `findVC` and `handleYB` -/

/-- The search finds the first place in the data where the constant stands, once a byte
behind it has come. -/
theorem searchVC_take {stream vc : List UInt8} {q n : ℕ} (h96 : 96 ≤ q)
    (hq : (stream.drop q).take 8 = vc)
    (hfirst : ∀ k, 96 ≤ k → k < q → (stream.drop k).take 8 ≠ vc) (hn : n ≤ stream.length) :
    searchVC (stream.take n) vc = if q + 8 < n then some q else none := by
  have hlen : (stream.take n).length = n := by simp [hn]
  have hpiece : ∀ k, k + 8 ≤ n → ((stream.take n).drop k).take 8 = (stream.drop k).take 8 := by
    intro k hk
    rw [List.drop_take, List.take_take, min_eq_left (by omega)]
  rw [searchVC, hlen]
  split
  · rename_i hlt
    rw [List.find?_range'_eq_some]
    refine ⟨by simp [hpiece q (by omega), hq], by simp [List.mem_range'_1]; omega, ?_⟩
    intro j hj hjq
    simpa [hpiece j (by omega)] using hfirst j hj hjq
  · rename_i hge
    rw [List.find?_range'_eq_none]
    intro j hj hjn
    simpa [hpiece j (by omega)] using hfirst j hj (by omega)

/-- The keys of the connection give the constant that is looked for. -/
theorem encryptedVC_eq (h : Searching a s) : encryptedVC c s.enc s.dec = a.encVC := by
  rw [h.enc, h.dec]
  rfl

/-- The search fails the connection when 616 bytes have come without the constant. -/
theorem findVC_eq (hl : Loaded a m t s) (h : Searching a s) {q : ℕ} (h96 : 96 ≤ q)
    (hq : (a.stream.drop q).take 8 = a.encVC)
    (hfirst : ∀ k, 96 ≤ k → k < q → (a.stream.drop k).take 8 ≠ a.encVC) :
    s.findVC c =
      if q + 8 < s.buf.length then handleCryptoSelect c { s with state := .foundVC, vcOff := q }
      else if s.buf.length ≥ 616 then s.fail else s := by
  have hle : s.buf.length ≤ a.stream.length := by
    have := hl.le
    rw [hl.length]
    omega
  have hsearch := searchVC_take h96 hq hfirst hle
  rw [← h.buf] at hsearch
  have hvc : encryptedVC c s.enc s.dec = a.encVC := encryptedVC_eq h
  unfold findVC
  simp only [hvc, hsearch]
  by_cases hlt : q + 8 < s.buf.length
  · simp only [if_pos hlt]
  · simp only [if_neg hlt]

/-- The public key gives the keys; then the constant is looked for. -/
theorem handleYB_eq (hl : Loaded a m t s) (hpad : s.padDLen = 0) (hdec : s.decrypted = [])
    (hbuf : s.buf = a.stream.take s.buf.length) (h96 : 96 ≤ s.buf.length) :
    ∃ s₁, Searching a s₁ ∧ Loaded a m t s₁ ∧ s₁.state = .gotYB ∧ s.handleYB c = s₁.findVC c := by
  have hkey : BigInt.fromBuffer s.buf 96 = BigInt.fromBuffer a.yb.1 96 := by
    rw [BigInt.fromBuffer, BigInt.fromBuffer, hbuf, List.take_take, min_eq_left h96,
      a.stream_take_yb, List.take_of_length_le a.yb.2.le]
  have hinputs : initiatorInputs c.xa s.buf c.infoHash c.memory
      = initiatorInputs c.xa a.yb.1 c.infoHash c.memory := by
    simp only [initiatorInputs, hkey]
  obtain ⟨provide, e, hencrypt⟩ : ∃ provide e,
      a.ciphers.encrypt (provideMessage c) = (provide, e) := ⟨_, _, rfl⟩
  have hdec' : e.dec = a.ciphers.dec := by
    have hsnd : (a.ciphers.encrypt (provideMessage c)).2 = e := by rw [hencrypt]
    rw [← hsnd]
    rfl
  obtain ⟨s₁, hs₁⟩ : ∃ s₁ : EncryptedAuthenticate, s₁ = { s with
      s := dhSecret c.xa (BigInt.fromBuffer s.buf 96)
      state := .gotYB
      enc := a.keys.1
      dec := a.keys.2
      ourRc4 := some e
      sent := s.sent ++ [(c.sha1 (initiatorInputs c.xa a.yb.1 c.infoHash c.memory).req1).1,
        Responder.xorHash (c.sha1 (ascii "req2" ++ c.infoHash.1)).1
          (c.sha1 (initiatorInputs c.xa a.yb.1 c.infoHash c.memory).req3).1, provide] } :=
    ⟨_, rfl⟩
  refine ⟨s₁, ?_, ?_, by rw [hs₁], ?_⟩
  · subst hs₁
    exact ⟨rfl, rfl, ⟨e, rfl, hdec'⟩, hpad, hbuf, hdec⟩
  · subst hs₁
    exact { hl with }
  · have hcipher : RC4Encryptor.new c.rc4
        (c.sha1 (initiatorInputs c.xa a.yb.1 c.infoHash c.memory).keyB).1
        (c.sha1 (initiatorInputs c.xa a.yb.1 c.infoHash c.memory).keyA).1 = a.ciphers := rfl
    rw [handleYB, if_neg (by omega), hinputs]
    simp only [hcipher, hencrypt]
    rw [hs₁]
    rfl

/-! ## Reading into the buffer -/

/-- The handler of a state of the encrypted handshake, behind a read of `toRead` bytes. -/
def handle (c : Opener) (toRead : ℕ) (s : EncryptedAuthenticate) : EncryptedAuthenticate :=
  match s.state with
  | .sentYA => if toRead > 608 then s.fail else s.handleYB c
  | .gotYB => s.findVC c
  | .foundVC => s.handleCryptoSelect c
  | .waitForPadD => s.handlePadD c
  | .normalHandshake => s
  | .notConnected => s

/-- How far the buffer may be filled: PadD is its end once its length is known. -/
def room (s : EncryptedAuthenticate) : ℕ :=
  if 0 < s.padDLen then min maxEaBufSize (s.vcOff + 14 + s.padDLen) else maxEaBufSize

theorem bytesToRead_eq {s : EncryptedAuthenticate} {ba : ℕ} (h : s.buf.length ≤ s.room) :
    s.bytesToRead ba = min (s.buf.length + ba) s.room - s.buf.length := by
  rw [bytesToRead]
  simp only [room] at h ⊢
  split_ifs at h ⊢ <;> omega

/-- The next bytes go into the buffer, as far as they may, and the handler is called. -/
theorem arrive_eq (hl : Loaded a m t s) (hroom : s.buf.length ≤ s.room) (hm : s.room ≤ m)
    {chunk : List UInt8} (hne : chunk ≠ [])
    (hnext : a.stream.take (t + chunk.length) = a.stream.take t ++ chunk)
    (hle : t + chunk.length ≤ a.stream.length) (hstate : s.state ≠ .normalHandshake)
    (hstart : s.state ≠ .notConnected) :
    ∃ sock device, ∃ s₁ : EncryptedAuthenticate, s₁ = { s with
        sock := sock
        device := device
        buf := s.buf ++ (a.stream.take (min (t + chunk.length) s.room)).drop s.buf.length } ∧
      Loaded a s.room (t + chunk.length) s₁ ∧
      arrive c s chunk = handle c (min (t + chunk.length) s.room - s.buf.length) s₁ := by
  have hpos : 0 < chunk.length := List.length_pos_iff.mpr hne
  have hlt := hl.le
  have hlength := hl.length
  have hdevice : s.device ++ chunk = (a.stream.take (t + chunk.length)).drop s.buf.length := by
    rw [hl.device, hnext, ← hlength, List.drop_append_of_le_length]
    rw [List.length_take]
    omega
  have hdevlen : (s.device ++ chunk).length = t + chunk.length - s.buf.length := by
    rw [hdevice, List.length_drop, List.length_take, min_eq_left hle]
  have hroomMax : s.room ≤ maxEaBufSize := by
    rw [room]
    split <;> omega
  obtain ⟨n, hn⟩ : ∃ n, n = min (t + chunk.length) s.room - s.buf.length := ⟨_, rfl⟩
  -- the bytes that are read
  have hserves : Serves s.sock (s.device ++ chunk)
      (s.sock.readData (s.device ++ chunk) (List.replicate n 0) n (some n))
      (min n (min n (s.device ++ chunk).length)) :=
    readData_device hl.sound hl.unread (by simp) (by simp only [maxEaBufSize] at hroomMax; omega) n
  have hmin : min n (min n (s.device ++ chunk).length) = n := by omega
  rw [hmin] at hserves
  obtain ⟨r, hr⟩ : ∃ r, r = s.sock.readData (s.device ++ chunk) (List.replicate n 0) n (some n) :=
    ⟨_, rfl⟩
  rw [← hr] at hserves
  have hread : r.buf.take r.ret
      = (a.stream.take (min (t + chunk.length) s.room)).drop s.buf.length := by
    have htake : min (s.buf.length + n) (t + chunk.length) = min (t + chunk.length) s.room := by
      omega
    rw [hserves.ret, hserves.bytes, hl.unread, hl.enc, List.nil_append, hdevice, ← htake,
      ← List.take_take]
    conv_rhs => rw [List.drop_take, Nat.add_sub_cancel_left]
    rfl
  refine ⟨r.sock, r.device, _, rfl, ?_, ?_⟩
  · have hrest := hserves.rest
    have hnil : r.sock.unread = [] := by
      rw [hr]
      exact readData_unread hl.sound (by simp) hl.unread
    rw [hl.unread, List.nil_append, hnil, List.nil_append, hdevice, List.drop_drop] at hrest
    exact {
      le := hle
      pending := hl.pending
      sound := hserves.sound
      unread := hnil
      enc := by
        show r.sock.enc = none
        rw [hserves.enc, hl.enc]
        rfl
      handshake := hl.handshake
      received := hl.received
      handed := hl.handed
      length := by
        show (s.buf ++ _).length = _
        rw [List.length_append, List.length_drop, List.length_take]
        omega
      device := by
        show r.device = _
        rw [hrest]
        congr 1
        omega }
  · have hba : s.sock.bytesAvailable (s.device ++ chunk) = t + chunk.length - s.buf.length := by
      rw [bytesAvailable_eq hl.sound, hl.unread, List.length_nil, Nat.zero_add, hdevlen]
    obtain ⟨s', hs'⟩ : ∃ s', s' = { s with device := s.device ++ chunk } := ⟨_, rfl⟩
    have hpending : s'.finish = none := by rw [hs']; exact hl.pending
    have hba' : s'.sock.bytesAvailable s'.device = t + chunk.length - s.buf.length := by
      rw [hs', ← hba]
    have htoRead : s'.bytesToRead (t + chunk.length - s.buf.length) = n := by
      have hsame : s'.buf = s.buf ∧ s'.room = s.room := by
        rw [hs']
        exact ⟨rfl, rfl⟩
      rw [bytesToRead_eq (by rw [hsame.1, hsame.2]; exact hroom), hsame.1, hsame.2, hn]
      congr 2
      omega
    have hinto : s'.readInto n = { s with
        sock := r.sock
        device := r.device
        buf := s.buf ++ (a.stream.take (min (t + chunk.length) s.room)).drop s.buf.length } := by
      rw [hs', readInto]
      simp only [← hr, hread]
    have hst : s'.state = s.state := by rw [hs']
    rw [arrive, ← hs', onReadyRead]
    simp only [hpending, Option.isSome_none, Bool.false_eq_true, if_false, hba', htoRead, hst,
      hinto, handle, ← hn]
    rw [if_neg (by omega)]
    cases hcase : s.state with
    | normalHandshake => exact absurd hcase hstate
    | notConnected => exact absurd hcase hstart
    | _ => rfl

end KTorrent.EncryptedAuthenticate
