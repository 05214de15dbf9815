import KTorrent.Mse.InitiatorStream

/-!
# The stages of the encrypted handshake

What each handler of the responder does when the stream of an initiator has arrived up to
some byte, as one equation for each: how it changes the state, and which handler or which
state comes next.

* `Loaded` — the data is in the buffer, as far as it fits.
* `Found`, `HashDone`, `VCDone`, `PadCDone` — what is known before `calculateSKey`,
  `processVC`, `handlePadC` and `handleIA`.
* `handleIA_eq`, `handlePadC_eq`, `processVC_eq`, `calculateSKey_eq`, `findReq1_eq`.
-/

namespace KTorrent.EncryptedServerAuthenticate

open Mse Runs EncryptedPacketSocket

variable {c : Responder} {i : Initiator c} {t : ℕ} {s : EncryptedServerAuthenticate}

/-- Of the `t` bytes that have arrived, as many as fit are in the buffer, and the others in
the device; nothing is put back or handed over. -/
structure Loaded (i : Initiator c) (t : ℕ) (s : EncryptedServerAuthenticate) : Prop where
  le : t ≤ i.stream.length
  pending : s.finish = none
  sound : s.sock.Sound
  unread : s.sock.unread = []
  enc : s.sock.enc = none
  handshake : s.handshake.length = 68
  received : s.bytesOfHandshakeReceived = 0
  handed : s.handed = []
  length : s.buf.length = min t maxSeaBufSize
  device : s.device = (i.stream.take t).drop (min t maxSeaBufSize)

/-- `req1` is found; nothing is deciphered. -/
structure Found (i : Initiator c) (s : EncryptedServerAuthenticate) : Prop where
  req1Off : s.req1Off = i.req1At
  secret : s.s = i.secret
  buf : s.buf = i.stream.take s.buf.length
  rc4 : s.ourRc4 = none
  sent : s.sent = [c.yb]
  decrypted : s.decrypted = []

/-- The info hash is known; nothing is deciphered. -/
structure HashDone (i : Initiator c) (s : EncryptedServerAuthenticate) : Prop where
  req1Off : s.req1Off = i.req1At
  secret : s.s = i.secret
  infoHash : s.infoHash = i.infoHash
  buf : s.buf = i.stream.take s.buf.length
  rc4 : s.ourRc4.getD i.ciphers = i.ciphers
  sent : s.sent = [c.yb]
  decrypted : s.decrypted = []

/-- The bytes up to PadC are deciphered, and answered. -/
structure VCDone (i : Initiator c) (s : EncryptedServerAuthenticate) : Prop where
  req1Off : s.req1Off = i.req1At
  select : s.cryptoSelect = 2
  padCLen : s.padCLen = i.padC.length
  rc4 : ∃ e, s.ourRc4 = some e ∧ e.dec = i.ciphers.dec.advance 14
  rest : s.buf.drop (i.req1At + 54) = (i.stream.take s.buf.length).drop (i.req1At + 54)
  sent : s.sent = [c.yb, i.reply]
  decrypted : s.decrypted = List.range' (i.req1At + 40) 14

/-- The bytes up to the initial data are deciphered. -/
structure PadCDone (i : Initiator c) (s : EncryptedServerAuthenticate) : Prop where
  req1Off : s.req1Off = i.req1At
  select : s.cryptoSelect = 2
  padCLen : s.padCLen = i.padC.length
  iaLen : s.iaLen = i.ia.length
  rc4 : ∃ e, s.ourRc4 = some e ∧ e.dec = i.ciphers.dec.advance (16 + i.padC.length)
  rest : s.buf.drop i.iaAt = (i.stream.take s.buf.length).drop i.iaAt
  sent : s.sent = [c.yb, i.reply]
  decrypted : s.decrypted = List.range' (i.req1At + 40) (16 + i.padC.length)

/-! ## `handleIA` -/

/-- What is handed to the BitTorrent handshake: all that follows PadC and the length, put
back or still in the device, and the cipher at its first byte. -/
theorem handleIA_eq (hl : Loaded i t s) (h : PadCDone i s) (hn : i.iaEnd ≤ s.buf.length) :
    ∃ (e : RC4Encryptor) (b : AuthenticateBase),
      e.dec = i.ciphers.dec.advance (16 + i.padC.length) ∧
      AuthenticateBase.Handing (some e) ((i.stream.take t).drop i.iaAt) b ∧
      b.finish = none ∧ b.bytesOfHandshakeReceived = 0 ∧ b.handed = [] ∧
      b.sock.unread = (i.stream.take s.buf.length).drop i.iaAt ∧
      s.handleIA c = { s with
        toAuthenticateBase := b.onReadyRead c.verdicts
        ourRc4 := none
        state := .nonEncryptedHandshake } := by
  obtain ⟨e, he, hdec⟩ := h.rc4
  obtain ⟨hsound, hunread, -⟩ := reinsert_spec hl.sound (s.buf.drop i.iaAt)
  have hat : s.req1Off + 54 + s.padCLen + 2 = i.iaAt := by
    rw [h.req1Off, h.padCLen, Initiator.iaAt]
    omega
  have hend : s.req1Off + 54 + s.padCLen + 2 + s.iaLen = i.iaEnd := by
    rw [hat, h.iaLen, Initiator.iaEnd]
  have hpos : 0 < s.iaLen := h.iaLen ▸ i.ia_pos
  have hle : i.iaAt ≤ s.buf.length := (Nat.le_add_right _ _).trans hn
  refine ⟨e, { s.toAuthenticateBase with
    sock := (s.sock.reinsert (s.buf.drop i.iaAt)).setRC4Encryptor (some e) }, hdec, ?_,
    hl.pending, hl.received, hl.handed, ?_, ?_⟩
  · exact {
      sound := hsound
      handshake := hl.handshake
      enc := by show some e = advance (some e) s.handed.length; rw [hl.handed]; rfl
      le := by show s.handed.length ≤ _; rw [hl.handed]; exact Nat.zero_le _
      handed := by
        show s.handed = decipher _ (List.take s.handed.length _)
        rw [hl.handed]
        rfl
      rest := by
        show (s.sock.reinsert _).unread ++ s.device = List.drop s.handed.length _
        have hlen := hl.length
        rw [hl.handed, List.length_nil, List.drop_zero, hunread, hl.unread, List.nil_append,
          h.rest, hl.device, ← hlen]
        have hsplit : i.stream.take t
            = i.stream.take s.buf.length ++ (i.stream.take t).drop s.buf.length := by
          conv_lhs => rw [← List.take_append_drop s.buf.length (i.stream.take t)]
          rw [List.take_take, min_eq_left (by omega)]
        conv_rhs => rw [hsplit]
        have hl' := hl.le
        rw [List.drop_append_of_le_length (by rw [List.length_take]; omega)]
      received := .inl hl.received }
  · show (s.sock.reinsert _).unread = _
    rw [hunread, hl.unread, List.nil_append, h.rest]
  · rw [handleIA, hend, if_neg (by omega)]
    simp only [hpos, if_true, hat]
    rw [if_pos (by rw [h.select]; decide), he]
    rfl

/-- Less than all of the initial data: nothing happens. -/
theorem handleIA_short (h : PadCDone i s) (hn : s.buf.length < i.iaEnd) : s.handleIA c = s := by
  have hend : s.req1Off + 54 + s.padCLen + 2 + s.iaLen = i.iaEnd := by
    rw [h.req1Off, h.padCLen, h.iaLen, Initiator.iaEnd, Initiator.iaAt]
    omega
  rw [handleIA, hend, if_pos hn]

/-! ## Deciphering a piece of the buffer -/

section
variable (e : RC4Encryptor) {off len : ℕ}

theorem decryptAt_buf :
    (s.decryptAt e off len).buf
      = s.buf.take off ++ e.dec.apply ((s.buf.drop off).take len) ++ s.buf.drop (off + len) := by
  rw [decryptAt]
  simp only [RC4Encryptor.decrypt, List.drop_drop, List.append_assoc]

theorem decryptAt_length (h : off + len ≤ s.buf.length) :
    (s.decryptAt e off len).buf.length = s.buf.length := by
  rw [decryptAt_buf e]
  simp
  omega

/-- What is behind the piece stays. -/
theorem decryptAt_drop (h : off + len ≤ s.buf.length) :
    (s.decryptAt e off len).buf.drop (off + len) = s.buf.drop (off + len) := by
  rw [decryptAt_buf e]
  exact List.drop_left' (by simp; omega)

end

/-- A piece of the stream, deciphered where it is due. -/
theorem apply_piece {n off k len : ℕ} (hoff : off = i.req1At + 40 + k) (hlen : off + len ≤ n)
    (hrest : s.buf.drop off = (i.stream.take n).drop off) :
    (i.ciphers.dec.advance k).apply ((s.buf.drop off).take len) = (i.plain.drop k).take len := by
  rw [hrest, List.drop_take, List.take_take, min_eq_left (by omega), hoff, i.stream_drop,
    ← KeyStream.apply_take, KeyStream.apply_apply]

/-! ## `handlePadC` -/

theorem handlePadC_short (h : VCDone i s) (hn : s.buf.length < i.iaAt) : s.handlePadC c = s := by
  have hat : s.req1Off + 54 + s.padCLen + 2 = i.iaAt := by
    rw [h.req1Off, h.padCLen, Initiator.iaAt]
    omega
  rw [handlePadC, hat, if_pos hn]

/-- PadC and the length behind it are deciphered; then it is the turn of the initial data,
unless fewer bytes than their length have come since PadC began. -/
theorem handlePadC_eq (hl : Loaded i t s) (h : VCDone i s) (hn : i.iaAt ≤ s.buf.length) :
    ∃ s₁, PadCDone i s₁ ∧ Loaded i t s₁ ∧ s₁.state = s.state ∧ s₁.buf.length = s.buf.length ∧
      s.handlePadC c = if s.buf.length < i.req1At + 54 + i.ia.length
        then { s₁ with state := .waitForIA } else s₁.handleIA c := by
  obtain ⟨e, he, hdec⟩ := h.rc4
  have hat : i.iaAt = i.req1At + 54 + (i.padC.length + 2) := by rw [Initiator.iaAt]; omega
  have hfit : i.req1At + 54 + (i.padC.length + 2) ≤ s.buf.length := hat ▸ hn
  have hplain : (i.plain.drop 14).take (i.padC.length + 2)
      = i.padC ++ writeUint16 (UInt16.ofNat i.ia.length) := by
    rw [Initiator.plain, List.append_assoc, List.drop_left' i.length_vc]
    exact List.take_left' (by simp)
  have hpiece : e.dec.apply ((s.buf.drop (i.req1At + 54)).take (i.padC.length + 2))
      = i.padC ++ writeUint16 (UInt16.ofNat i.ia.length) := by
    rw [hdec, apply_piece (by omega) hfit h.rest, hplain]
  have hia : (UInt16.ofNat i.ia.length).toNat = i.ia.length := by
    have hle := i.ia_le
    rw [UInt16.toNat_ofNat']
    omega
  have hread : readUint16 (s.decryptAt e (i.req1At + 54) (i.padC.length + 2)).buf
      (i.req1At + 54 + i.padC.length) = some (UInt16.ofNat i.ia.length) := by
    have hpre : (s.buf.take (i.req1At + 54) ++ i.padC).length = i.req1At + 54 + i.padC.length := by
      simp; omega
    rw [decryptAt_buf e, hpiece, ← List.append_assoc, List.append_assoc, ← hpre]
    exact readUint16_writeUint16 _ _ _
  have hlength := decryptAt_length e hfit
  refine ⟨{ s.decryptAt e (i.req1At + 54) (i.padC.length + 2) with iaLen := i.ia.length },
    ?_, ?_, rfl, hlength, ?_⟩
  · exact {
      req1Off := h.req1Off
      select := h.select
      padCLen := h.padCLen
      iaLen := rfl
      rc4 := ⟨_, rfl, by rw [RC4Encryptor.decrypt_dec, hdec, KeyStream.advance_advance]; congr 1; omega⟩
      rest := by
        show (s.decryptAt e _ _).buf.drop _ = (i.stream.take (s.decryptAt e _ _).buf.length).drop _
        rw [hlength, hat, decryptAt_drop e hfit, ← List.drop_drop, h.rest, List.drop_drop]
      sent := h.sent
      decrypted := by
        show s.decrypted ++ List.range' _ _ = _
        rw [h.decrypted, List.range'_append_1]
        congr 1
        omega }
  · exact { hl with length := hlength.trans hl.length }
  · have hpad : (s.decryptAt e (i.req1At + 54) (i.padC.length + 2)).padCLen = i.padC.length :=
      h.padCLen
    rw [handlePadC, h.req1Off, h.padCLen, if_neg (by omega)]
    simp only [he, hpad, hread, hia, hlength]

/-! ## `processVC` -/

theorem newRC4_eq (h : HashDone i s) : s.ourRc4.getD (c.newRC4 s.s s.infoHash) = i.ciphers := by
  rw [h.secret, h.infoHash]
  exact h.rc4

theorem processVC_short (h : HashDone i s) (hn : s.buf.length < i.req1At + 54) :
    s.processVC c = { s with ourRc4 := some i.ciphers } := by
  rw [processVC, newRC4_eq h, h.req1Off]
  exact if_pos (by omega)

/-- What `processVC` makes of the 14 bytes, when they are those of an initiator. -/
theorem readVC_eq {s : EncryptedServerAuthenticate} {e : RC4Encryptor} {off : ℕ} {len : UInt16}
    (hzero : (s.buf.drop off).take 8 = List.replicate 8 0)
    (hprovide : readUint32 s.buf (off + 8) = some i.cryptoProvide)
    (hpad : readUint16 s.buf (off + 12) = some len) (hlen : len.toNat ≤ 512) :
    s.readVC c e off =
      if s.buf.length < s.req1Off + 14 + len.toNat then
        { s with
          cryptoProvide := i.cryptoProvide
          padCLen := len.toNat
          cryptoSelect := 2
          ourRc4 := some (e.encrypt (List.replicate 8 0 ++ writeUint32 2 ++ writeUint16 0)).2
          sent := s.sent ++ [(e.encrypt (List.replicate 8 0 ++ writeUint32 2 ++ writeUint16 0)).1]
          state := .waitForPadC }
      else handlePadC c { s with
          cryptoProvide := i.cryptoProvide
          padCLen := len.toNat
          cryptoSelect := 2
          ourRc4 := some (e.encrypt (List.replicate 8 0 ++ writeUint32 2 ++ writeUint16 0)).2
          sent := s.sent ++
            [(e.encrypt (List.replicate 8 0 ++ writeUint32 2 ++ writeUint16 0)).1] } := by
  have hselect : (if i.cryptoProvide &&& 2 ≠ 0 then (2 : UInt32) else 1) = 2 := if_pos i.rc4
  rw [readVC, if_neg (not_not.mpr hzero)]
  simp only [hprovide, hpad, hselect]
  rw [if_neg (not_lt.mpr hlen)]

/-- The constant, `crypto_provide` and the length of PadC are deciphered, and the reply is
sent; then it is the turn of PadC, unless fewer bytes than its length have come since 14
bytes behind the first hash. -/
theorem processVC_eq (hl : Loaded i t s) (h : HashDone i s) (hn : i.req1At + 54 ≤ s.buf.length) :
    ∃ s₁, VCDone i s₁ ∧ Loaded i t s₁ ∧ s₁.state = s.state ∧ s₁.buf.length = s.buf.length ∧
      s.processVC c = if s.buf.length < i.req1At + 14 + i.padC.length
        then { s₁ with state := .waitForPadC } else s₁.handlePadC c := by
  have hfit : i.req1At + 40 + 14 ≤ s.buf.length := hn
  have hpiece : i.ciphers.dec.apply ((s.buf.drop (i.req1At + 40)).take 14) = i.vc := by
    have hdrop : s.buf.drop (i.req1At + 40)
        = (i.stream.take s.buf.length).drop (i.req1At + 40) := by rw [← h.buf]
    have happly := apply_piece (k := 0) rfl hfit hdrop
    rw [KeyStream.advance_zero, List.drop_zero] at happly
    rw [happly, Initiator.plain, List.append_assoc]
    exact List.take_left' i.length_vc
  obtain ⟨s₀, hs₀⟩ : ∃ s₀, s₀ = decryptAt { s with ourRc4 := some i.ciphers } i.ciphers
    (s.req1Off + 40) 14 := ⟨_, rfl⟩
  have hbuf : s₀.buf = s.buf.take (i.req1At + 40) ++ i.vc ++ s.buf.drop (i.req1At + 54) := by
    rw [hs₀, decryptAt_buf]
    show s.buf.take (s.req1Off + 40) ++ i.ciphers.dec.apply ((s.buf.drop (s.req1Off + 40)).take 14)
      ++ s.buf.drop (s.req1Off + 40 + 14) = _
    rw [h.req1Off, hpiece]
  have hpre : (s.buf.take (i.req1At + 40)).length = i.req1At + 40 := by simp; omega
  have hlength : s₀.buf.length = s.buf.length := by
    rw [hbuf]
    simp
    omega
  have hzero : (s₀.buf.drop (i.req1At + 40)).take 8 = List.replicate 8 0 := by
    rw [hbuf, List.append_assoc, List.drop_left' hpre]
    rfl
  have hprovide : readUint32 s₀.buf (i.req1At + 40 + 8) = some i.cryptoProvide := by
    have hp : (s.buf.take (i.req1At + 40) ++ List.replicate 8 0).length = i.req1At + 40 + 8 := by
      rw [List.length_append, hpre, List.length_replicate]
    rw [hbuf, Initiator.vc, ← hp]
    simp only [List.append_assoc]
    rw [← List.append_assoc (s.buf.take (i.req1At + 40))]
    exact readUint32_writeUint32 _ _ _
  have hpad : readUint16 s₀.buf (i.req1At + 40 + 12) = some (UInt16.ofNat i.padC.length) := by
    have hp : (s.buf.take (i.req1At + 40) ++ (List.replicate 8 0 ++ writeUint32
        i.cryptoProvide)).length = i.req1At + 40 + 12 := by
      rw [List.length_append, hpre]
      simp
    rw [hbuf, Initiator.vc, ← hp, ← List.append_assoc (s.buf.take (i.req1At + 40)),
      List.append_assoc]
    exact readUint16_writeUint16 _ _ _
  have hpadLen : (UInt16.ofNat i.padC.length).toNat = i.padC.length := by
    have hle := i.padC_le
    rw [UInt16.toNat_ofNat']
    omega
  have hrest : s₀.buf.drop (i.req1At + 54) = s.buf.drop (i.req1At + 54) := by
    rw [hbuf]
    exact List.drop_left' (by rw [List.length_append, hpre, i.length_vc])
  have hsame : s₀.finish = s.finish ∧ s₀.sock = s.sock ∧ s₀.device = s.device := by
    rw [hs₀]
    exact ⟨rfl, rfl, rfl⟩
  have hreq1 : s₀.req1Off = i.req1At := by
    rw [hs₀]
    exact h.req1Off
  have hle := i.padC_le
  refine ⟨{ s₀ with
    cryptoProvide := i.cryptoProvide
    padCLen := i.padC.length
    cryptoSelect := 2
    ourRc4 := some ((i.ciphers.decrypt (s.buf.drop (i.req1At + 40)) 14).2.encrypt
      (List.replicate 8 0 ++ writeUint32 2 ++ writeUint16 0)).2
    sent := s₀.sent ++ [i.reply] }, ?_, ?_, ?_, hlength, ?_⟩
  · exact {
      req1Off := hreq1
      select := rfl
      padCLen := rfl
      rc4 := ⟨_, rfl, rfl⟩
      rest := by
        show s₀.buf.drop _ = (i.stream.take s₀.buf.length).drop _
        rw [hrest, hlength, ← h.buf]
      sent := by
        show s₀.sent ++ _ = _
        rw [hs₀]
        show s.sent ++ _ = _
        rw [h.sent]
        rfl
      decrypted := by
        show s₀.decrypted = _
        rw [hs₀]
        show s.decrypted ++ List.range' (s.req1Off + 40) 14 = _
        rw [h.decrypted, h.req1Off]
        rfl }
  · subst hs₀
    exact { hl with length := hlength.trans hl.length }
  · rw [hs₀]
    rfl
  · have hproc : s.processVC c
        = s₀.readVC c (i.ciphers.decrypt (s.buf.drop (s.req1Off + 40)) 14).2 (s.req1Off + 40) := by
      have hlong : ¬ s.buf.length < s.req1Off + 40 + 14 := by rw [h.req1Off]; omega
      rw [processVC, newRC4_eq h]
      dsimp only
      rw [if_neg hlong, hs₀]
    rw [hproc, h.req1Off, readVC_eq hzero hprovide hpad (by omega), hpadLen, hlength, hreq1]
    rfl

/-! ## `calculateSKey` and `findReq1` -/

theorem calculateSKey_short (h : Found i s) (hn : s.buf.length < i.req1At + 40) :
    s.calculateSKey c = s := by
  rw [calculateSKey, h.req1Off]
  exact if_pos hn

/-- The info hash is found, and it is the turn of the constant. -/
theorem calculateSKey_eq (h : Found i s) (hn : i.req1At + 40 ≤ s.buf.length) :
    s.calculateSKey c
        = processVC c { s with infoHash := i.infoHash, state := .foundInfoHash } ∧
      HashDone i { s with infoHash := i.infoHash, state := .foundInfoHash } := by
  have hpiece : (s.buf.drop (i.req1At + 20)).take 20
      = Responder.xorHash (c.req2 i.infoHash).1 (c.req3 i.secret).1 := by
    rw [h.buf, List.drop_take, List.take_take, min_eq_left (by omega), i.stream_req2]
  have hkey : Responder.xorHash ((s.buf.drop (s.req1Off + 20)).take 20) (c.req3 s.s).1
      = (c.req2 i.infoHash).1 := by
    rw [h.req1Off, h.secret, hpiece,
      Initiator.xorHash_xorHash _ _ ((c.req2 i.infoHash).2.trans (c.req3 i.secret).2.symm)]
  refine ⟨?_, h.req1Off, h.secret, rfl, h.buf, ?_, h.sent, h.decrypted⟩
  · have hlong : ¬ s.req1Off + 40 > s.buf.length := by rw [h.req1Off]; omega
    rw [calculateSKey, if_neg hlong]
    dsimp only
    rw [hkey, i.known]
  · show s.ourRc4.getD _ = _
    rw [h.rc4]
    rfl

/-- The search finds the first place in the data where the hash stands, once a byte behind
it has come. -/
theorem searchReq1_take {stream req1 : List UInt8} {q n : ℕ} (h96 : 96 ≤ q)
    (hq : (stream.drop q).take 20 = req1)
    (hfirst : ∀ k, 96 ≤ k → k < q → (stream.drop k).take 20 ≠ req1) (hn : n ≤ stream.length) :
    searchReq1 (stream.take n) req1 = if q + 20 < n then some q else none := by
  have hlen : (stream.take n).length = n := by simp [hn]
  have hpiece : ∀ k, k + 20 ≤ n → ((stream.take n).drop k).take 20 = (stream.drop k).take 20 := by
    intro k hk
    rw [List.drop_take, List.take_take, min_eq_left (by omega)]
  rw [searchReq1, hlen]
  split
  · rename_i hlt
    rw [List.find?_range'_eq_some]
    refine ⟨by simp [hpiece q (by omega), hq], by simp [List.mem_range'_1]; omega, ?_⟩
    intro j hj hjq
    simpa [hpiece j (by omega)] using hfirst j hj hjq
  · rename_i hge
    rw [List.find?_range'_eq_none]
    intro j hj hjn
    simpa [hpiece j (by omega)] using hfirst j hj (by omega)

/-- `req1` is looked for. -/
structure Searching (i : Initiator c) (s : EncryptedServerAuthenticate) : Prop where
  secret : s.s = i.secret
  buf : s.buf = i.stream.take s.buf.length
  rc4 : s.ourRc4 = none
  sent : s.sent = [c.yb]
  decrypted : s.decrypted = []

/-- The search fails the connection when 608 bytes have come without the hash. -/
theorem findReq1_eq (hl : Loaded i t s) (h : Searching i s) {q : ℕ} (h96 : 96 ≤ q)
    (hq : (i.stream.drop q).take 20 = (c.req1 i.secret).1)
    (hfirst : ∀ k, 96 ≤ k → k < q → (i.stream.drop k).take 20 ≠ (c.req1 i.secret).1) :
    s.findReq1 c =
      if q + 20 < s.buf.length then calculateSKey c { s with state := .foundReq1, req1Off := q }
      else if 608 < s.buf.length then s.fail else s := by
  have hle : s.buf.length ≤ i.stream.length := by
    have := hl.le
    rw [hl.length]
    omega
  have hsearch := searchReq1_take h96 hq hfirst hle
  rw [← h.buf, ← h.secret] at hsearch
  rw [findReq1, hsearch]
  by_cases hlt : q + 20 < s.buf.length
  · rw [if_neg (by omega), if_pos hlt, if_pos hlt]
  · rw [if_neg hlt, if_neg hlt]
    split
    · rw [if_neg (by omega)]
    · rfl

/-! ## Reading into the buffer -/

/-- The handler of a state of the encrypted handshake, behind the read. -/
def handle (c : Responder) (s : EncryptedServerAuthenticate) : EncryptedServerAuthenticate :=
  match s.state with
  | .waitingForYA => if 96 ≤ s.buf.length then s.handleYA c else s
  | .waitingForReq1 => s.findReq1 c
  | .foundReq1 => s.calculateSKey c
  | .foundInfoHash => s.processVC c
  | .waitForPadC => s.handlePadC c
  | .waitForIA => s.handleIA c
  | .nonEncryptedHandshake => s

/-- The next bytes go into the buffer, as far as they fit, and the handler is called. -/
theorem arrive_eq (hl : Loaded i t s) (ht : t < maxSeaBufSize) {chunk : List UInt8}
    (hne : chunk ≠ []) (hnext : i.stream.take (t + chunk.length) = i.stream.take t ++ chunk)
    (hle : t + chunk.length ≤ i.stream.length) (hstate : s.state ≠ .nonEncryptedHandshake) :
    ∃ sock device, ∃ s₁ : EncryptedServerAuthenticate, s₁ = { s with
        sock := sock
        device := device
        buf := s.buf ++ (i.stream.take (min (t + chunk.length) maxSeaBufSize)).drop t } ∧
      Loaded i (t + chunk.length) s₁ ∧ arrive c s chunk = handle c s₁ := by
  have hpos : 0 < chunk.length := List.length_pos_iff.mpr hne
  have hlength : s.buf.length = t := by rw [hl.length, min_eq_left ht.le]
  have htake : (i.stream.take t).length = t := by
    have := hl.le
    rw [List.length_take]
    omega
  have hdevice : s.device ++ chunk = chunk := by
    rw [hl.device, min_eq_left ht.le, List.drop_eq_nil_of_le htake.le, List.nil_append]
  obtain ⟨m, hm⟩ : ∃ m, m = min (t + chunk.length) maxSeaBufSize - t := ⟨_, rfl⟩
  -- the bytes that are read
  have hserves : Serves s.sock chunk (s.sock.readData chunk (List.replicate m 0) m (some m))
      (min m (min m chunk.length)) :=
    readData_device hl.sound hl.unread (by simp) (by simp only [maxSeaBufSize] at hm; omega) m
  have hmin : min m (min m chunk.length) = m := by omega
  rw [hmin] at hserves
  obtain ⟨r, hr⟩ : ∃ r, r = s.sock.readData chunk (List.replicate m 0) m (some m) := ⟨_, rfl⟩
  rw [← hr] at hserves
  have hgot : r.buf.take r.ret = chunk.take m := by
    rw [hserves.ret, hserves.bytes, hl.unread, hl.enc]
    rfl
  have hsplit : ∀ n, t ≤ n → n ≤ t + chunk.length →
      i.stream.take n = i.stream.take t ++ chunk.take (n - t) := by
    intro n hn hn'
    have hcut := congrArg (List.take n) hnext
    have hkeep : (i.stream.take t).take n = i.stream.take t := List.take_of_length_le (by omega)
    rw [List.take_take, min_eq_left hn', List.take_append, htake, hkeep] at hcut
    exact hcut
  have hread : (i.stream.take (min (t + chunk.length) maxSeaBufSize)).drop t = chunk.take m := by
    rw [hsplit _ (by omega) (by omega), List.drop_left' htake, hm]
  refine ⟨r.sock, r.device, _, rfl, ?_, ?_⟩
  · have hrest := hserves.rest
    rw [hl.unread, List.nil_append] at hrest
    have hnil : r.sock.unread = [] := by
      rw [hr]
      exact readData_unread hl.sound (by simp) hl.unread
    rw [hnil, List.nil_append] at hrest
    exact {
      le := hle
      pending := hl.pending
      sound := hserves.sound
      unread := hnil
      enc := by
        show r.sock.enc = none
        rw [hserves.enc, hl.enc]
        rfl
      handshake := hl.handshake
      received := hl.received
      handed := hl.handed
      length := by
        show (s.buf ++ _).length = _
        rw [List.length_append, hlength, hread, List.length_take]
        omega
      device := by
        show r.device = _
        have hgone : (i.stream.take t).drop (min (t + chunk.length) maxSeaBufSize) = [] :=
          List.drop_eq_nil_of_le (by omega)
        rw [hrest, hnext, List.drop_append, htake, hgone, List.nil_append, hm] }
  · have hba : s.sock.bytesAvailable chunk = chunk.length := by
      rw [bytesAvailable_eq hl.sound, hl.unread, List.length_nil, Nat.zero_add]
    have hcap : (if s.buf.length + chunk.length > maxSeaBufSize then maxSeaBufSize - s.buf.length
        else chunk.length) = m := by
      rw [hlength, hm]
      split <;> omega
    obtain ⟨s', hs'⟩ : ∃ s', s' = { s with device := s.device ++ chunk } := ⟨_, rfl⟩
    have hpending : s'.finish = none := by rw [hs']; exact hl.pending
    have hba' : s'.sock.bytesAvailable s'.device = chunk.length := by
      rw [hs', ← hba]
      exact congrArg _ hdevice
    have hlength' : s'.buf.length = s.buf.length := by rw [hs']
    have hinto : s'.readInto m
        = { s with sock := r.sock, device := r.device, buf := s.buf ++ chunk.take m } := by
      rw [hs', readInto]
      simp only [hdevice, ← hr, hgot]
    have hnot : ¬ (m ≤ 68 ∧ c.unencryptedConnectionsAllowed = true) := by simp [i.required]
    rw [arrive, ← hs', onReadyRead]
    simp only [hpending, Option.isSome_none, Bool.false_eq_true, if_false, hba', hpos.ne', hlength',
      hcap, hnot, hinto, hread, handle]
    have hst : s'.state = s.state := by rw [hs']
    rw [hst]
    cases hcase : s.state with
    | nonEncryptedHandshake => exact absurd hcase hstate
    | _ => rfl

end KTorrent.EncryptedServerAuthenticate
