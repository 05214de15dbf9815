import KTorrent.Mse.InitiatorStages

/-!
# The initiator and the segmentation

* `Orderly` — at every moment: no failure, the answer deciphered byte by byte from the
  constant on and no byte before it has come, nothing behind the end of the buffer, and
  only payload handed over.
* `Completed` — at the end: everything in front of the payload deciphered, and all of the
  payload handed over or ready to be read.
* `CutOk` — what a cut point must not do: end a read where the constant may not have come
  and the search gives up, or inside PadD once its length is known, or leave PadD to an
  event that never comes, or leave too little behind PadD.
* `initiator_independent_iff` — the initiator does its work along a run exactly when PadB does not
  contain the constant and every cut point is of that kind.
-/

namespace KTorrent

open Mse Runs EncryptedPacketSocket EncryptedAuthenticate

variable {c : Opener}

namespace Answerer

/-- The law at every moment. -/
structure Orderly (a : Answerer c) (s : EncryptedAuthenticate) : Prop where
  notFailed : s.finish ≠ some .encrypted
  decrypted : s.decrypted = List.range' a.vcAt s.decrypted.length
  come : ∀ p ∈ s.decrypted, p < s.buf.length
  fits : s.buf.length ≤ maxEaBufSize
  cipher : s.state = .normalHandshake →
    s.sock.enc.map (·.dec) = some (a.ciphers.dec.advance (14 + a.padD.length + s.handed.length))
  handed : s.handed <+: a.payload

/-- The law at the end. -/
structure Completed (a : Answerer c) (s : EncryptedAuthenticate) : Prop where
  decrypted : s.decrypted = List.range' a.vcAt (14 + a.padD.length)
  handed : s.handed ++ decipher s.sock.enc (s.sock.unread ++ s.device) = a.payload

/-- The initiator does its work, in whatever pieces the answer arrives. -/
def Independent (a : Answerer c) (d : Delivery a.stream) : Prop :=
  AllStates (EncryptedAuthenticate.arrive c) a.Orderly (EncryptedAuthenticate.new.connected c)
      d.chunks ∧
    a.Completed (run (EncryptedAuthenticate.arrive c) (EncryptedAuthenticate.new.connected c)
      d.chunks)

/-- The enciphered constant does not stand in PadB already. -/
def VcAtEnd (a : Answerer c) : Prop :=
  ∀ k < a.padB.length, ((a.padB ++ a.encVC).drop k).take 8 ≠ a.encVC

/-- A read that takes the bytes from `prev` to `t`. -/
structure CutOk (a : Answerer c) (prev t : ℕ) : Prop where
  /-- The search does not give up with the constant as the last bytes. -/
  search : ¬ (t = 616 ∧ a.vcAt = 608)
  /-- The read that brings a byte behind the 14 bytes, and one behind PadD, brings the 48
  bytes a BitTorrent handshake is started with, or they never come; and if the buffer was
  too small for it, it holds a whole handshake. -/
  start : prev ≤ a.vcAt + 14 → a.payloadAt < min t maxEaBufSize →
    a.payload.length < 48 ∨
      (a.payloadAt + 48 ≤ t ∧ (t ≤ maxEaBufSize ∨ a.payloadAt + 68 ≤ maxEaBufSize))
  /-- The read that brings a byte behind the 14 bytes is not the last one if it brings none
  behind PadD. -/
  last : prev ≤ a.vcAt + 14 → min t maxEaBufSize ≤ a.payloadAt → t < a.stream.length
  /-- The read behind that completes PadD. -/
  padD : a.vcAt + 14 < prev → prev < a.payloadAt → a.payloadAt ≤ t

/-- Every cut point is of that kind. -/
def CutsOk (a : Answerer c) (d : Delivery a.stream) : Prop :=
  AllSteps (fun n (chunk : List UInt8) => n + chunk.length)
    (fun n chunk => a.CutOk n (n + chunk.length)) 0 d.chunks

/-! ## A good run, byte for byte -/

/-- PadD has come: the rest of the answer is handed over. -/
structure HandedOver (a : Answerer c) (t : ℕ) (s : EncryptedAuthenticate) : Prop where
  le : t ≤ a.stream.length
  state : s.state = .normalHandshake
  notFailed : s.finish ≠ some .encrypted
  decrypted : s.decrypted = List.range' a.vcAt (14 + a.padD.length)
  come : a.payloadAt ≤ s.buf.length
  fits : s.buf.length ≤ maxEaBufSize
  base : ∃ e : RC4Encryptor, e.dec = a.ciphers.dec.advance (14 + a.padD.length) ∧
    AuthenticateBase.Handing (some e) ((a.stream.take t).drop a.payloadAt) s.toAuthenticateBase

/-- No read will need both the data put back and the device. -/
def Settled (a : Answerer c) (s : EncryptedAuthenticate) : Prop :=
  s.finish.isSome ∨ s.sock.unread = [] ∨ a.payload.length < 48

/-- Where a good run is when `t` bytes have arrived. -/
inductive At (a : Answerer c) (t : ℕ) (s : EncryptedAuthenticate) : Prop
  | searching (hl : Loaded a maxEaBufSize t s) (hs : s.state = .gotYB) (ht : t ≤ a.vcAt + 8)
      (hmore : t < a.stream.length) (h : Searching a s)
  | found (hl : Loaded a maxEaBufSize t s) (hs : s.state = .foundVC) (hge : a.vcAt + 8 < t)
      (ht : t ≤ a.vcAt + 14) (hmore : t < a.stream.length) (h : Found a s)
  | padD (hl : Loaded a maxEaBufSize t s) (hs : s.state = .waitForPadD) (hge : a.vcAt + 14 < t)
      (ht : min t maxEaBufSize ≤ a.payloadAt) (hmore : t < a.stream.length) (h : VCDone a s)
  | handed (hge : a.vcAt + 14 < t) (ht : a.payloadAt ≤ t) (h : HandedOver a t s)
      (hsettled : a.Settled s)

variable {a : Answerer c} {m t : ℕ} {s : EncryptedAuthenticate}

theorem searching_orderly (hl : Loaded a maxEaBufSize t s) (hs : s.state ≠ .normalHandshake)
    (hdec : s.decrypted = []) : a.Orderly s where
  notFailed := by simp [hl.pending]
  decrypted := by rw [hdec]; rfl
  come := by simp [hdec]
  fits := by rw [hl.length]; exact min_le_right _ _
  cipher := fun h => absurd h hs
  handed := by rw [hl.handed]; exact List.nil_prefix

theorem HandedOver.orderly (h : a.HandedOver t s) : a.Orderly s := by
  obtain ⟨e, hdec, hbase⟩ := h.base
  have hcome := h.come
  have hplain : decipher (some e) (a.stream.drop a.payloadAt) = a.payload := by
    show e.dec.apply _ = _
    rw [hdec, a.decipher_stream_drop]
  exact {
    notFailed := h.notFailed
    decrypted := by rw [h.decrypted, List.length_range']
    come := by
      intro p hp
      rw [h.decrypted, List.mem_range'_1] at hp
      simp only [payloadAt] at hcome
      omega
    fits := h.fits
    cipher := fun _ => by
      rw [hbase.enc]
      show some (e.dec.advance _) = _
      rw [hdec, KeyStream.advance_advance]
    handed := by
      have hraw : ((a.stream.take t).drop a.payloadAt).take s.handed.length
          <+: a.stream.drop a.payloadAt := by
        rw [List.drop_take]
        exact (List.take_prefix _ _).trans (List.take_prefix _ _)
      rw [← hplain, hbase.handed]
      exact decipher_prefix _ hraw }

theorem At.orderly (h : a.At t s) : a.Orderly s := by
  cases h with
  | searching hl hs _ _ h => exact searching_orderly hl (by simp [hs]) h.decrypted
  | found hl hs _ _ _ h => exact searching_orderly hl (by simp [hs]) h.decrypted
  | padD hl hs hge ht _ h =>
    have hlen := hl.length
    have hvc := a.vcAt_le
    exact {
      notFailed := by simp [hl.pending]
      decrypted := by rw [h.decrypted]; rfl
      come := by
        intro p hp
        rw [h.decrypted, List.mem_range'_1] at hp
        simp only [maxEaBufSize] at hlen
        omega
      fits := by rw [hlen]; exact min_le_right _ _
      cipher := fun hn => absurd (hs.symm.trans hn) (by decide)
      handed := by rw [hl.handed]; exact List.nil_prefix }
  | handed _ _ h _ => exact h.orderly

/-- At the end of the answer everything is done. -/
theorem At.completed (h : a.At a.stream.length s) : a.Completed s := by
  cases h with
  | searching _ _ _ hmore => exact absurd hmore (lt_irrefl _)
  | found _ _ _ _ hmore => exact absurd hmore (lt_irrefl _)
  | padD _ _ _ _ hmore => exact absurd hmore (lt_irrefl _)
  | handed _ _ h _ =>
    obtain ⟨e, hdec, hbase⟩ := h.base
    refine ⟨h.decrypted, ?_⟩
    rw [hbase.due, List.take_length]
    show e.dec.apply _ = _
    rw [hdec, a.decipher_stream_drop]

/-! ## A run that is lost -/

/-- Too little was put back for the first read, and more will come. -/
structure Short (a : Answerer c) (t : ℕ) (s : EncryptedAuthenticate) : Prop where
  handedOver : a.HandedOver t s
  pending : s.finish = none
  received : s.bytesOfHandshakeReceived = 0
  handed : s.handed = []
  unread : s.sock.unread ≠ []
  begun : a.payloadAt ≤ t
  short : t < a.payloadAt + 48
  more : 48 ≤ a.payload.length

/-- The law is broken, or will be when the rest of the answer comes, or all of it has come
and is not deciphered. -/
inductive Doomed (a : Answerer c) (t : ℕ) (s : EncryptedAuthenticate) : Prop
  | broken (h : ¬ a.Orderly s)
  | unfinished (ht : t = a.stream.length)
      (h : s.decrypted ≠ List.range' a.vcAt (14 + a.padD.length))
  | short (h : a.Short t s)

/-! ## From one stage to the next -/

/-- What is behind PadD brings the 48 bytes the BitTorrent handshake is started with. -/
def StartOk (a : Answerer c) (t : ℕ) : Prop :=
  a.payload.length < 48 ∨
    (a.payloadAt + 48 ≤ t ∧ (t ≤ maxEaBufSize ∨ a.payloadAt + 68 ≤ maxEaBufSize))

/-- The read that brings a byte behind the 14 bytes brings enough, or is not the last. -/
def SelectOk (a : Answerer c) (t : ℕ) : Prop :=
  (a.payloadAt < min t maxEaBufSize → a.StartOk t) ∧
    (min t maxEaBufSize ≤ a.payloadAt → t < a.stream.length)

theorem length_raw (hle : t ≤ a.stream.length) :
    ((a.stream.take t).drop a.payloadAt).length = t - a.payloadAt := by
  rw [List.length_drop, List.length_take, min_eq_left hle]

/-- A cipher that is too far on breaks the law. -/
theorem not_orderly_of_enc {e : RC4Encryptor} {n : ℕ} (hs : s.state = .normalHandshake)
    (hdec : e.dec = a.ciphers.dec.advance (14 + a.padD.length))
    (henc : s.sock.enc = advance (some e) (s.handed.length + n)) (hn : 0 < n) : ¬ a.Orderly s := by
  intro horderly
  have hcipher := horderly.cipher hs
  rw [henc] at hcipher
  have hpos := congrArg KeyStream.pos (Option.some.inj hcipher)
  simp only [hdec, KeyStream.advance_pos] at hpos
  omega

/-- PadD is complete, and something behind it has come. -/
theorem handlePadD_at (hl : Loaded a maxEaBufSize t s) (h : VCDone a s)
    (ht : a.payloadAt < min t maxEaBufSize) :
    (a.StartOk t → a.At t (s.handlePadD c)) ∧ (¬ a.StartOk t → a.Doomed t (s.handlePadD c)) := by
  have hlen := hl.length
  have hle := hl.le
  have hstream := a.length_stream
  have hat : a.payloadAt = a.vcAt + 14 + a.padD.length := rfl
  obtain ⟨hdecrypted, hlength, hstate⟩ := handlePadD_decrypted (c := c) h
  obtain ⟨e, b, hdec, hbase, hpending, hreceived, hhanded, hunread, heq⟩ :=
    handlePadD_over (c := c) hl h (by omega)
  obtain ⟨s', hs'⟩ : ∃ s', s' = s.handlePadD c := ⟨_, rfl⟩
  rw [← hs'] at hdecrypted hlength hstate heq
  rw [← hs']
  have hraw := length_raw (a := a) hle
  have hput : b.sock.unread.length = min t maxEaBufSize - a.payloadAt := by
    rw [hunread, length_raw (by omega), hlen]
  have hnil : b.handed.length = 0 := by rw [hhanded]; rfl
  have hover : AuthenticateBase.Handing (some e) ((a.stream.take t).drop a.payloadAt)
      s'.toAuthenticateBase → s'.finish ≠ some .encrypted → a.HandedOver t s' :=
    fun hb' hfin => ⟨hle, hstate, hfin, hdecrypted, by omega, by omega, e, hdec, hb'⟩
  constructor
  · intro hstart
    have hone : 48 ≤ ((a.stream.take t).drop a.payloadAt).length - b.handed.length →
        b.OneSource := by
      intro hlong
      obtain hsmall | ⟨-, hcap | hfull⟩ := hstart
      · omega
      · -- everything was put back
        have hrest := hbase.rest
        rw [hunread, hhanded, List.length_nil, List.drop_zero, hlen, min_eq_left hcap] at hrest
        exact .inr (.inl (List.append_right_eq_self.mp hrest))
      · by_cases hcap : t ≤ maxEaBufSize
        · have hrest := hbase.rest
          rw [hunread, hhanded, List.length_nil, List.drop_zero, hlen, min_eq_left hcap] at hrest
          exact .inr (.inl (List.append_right_eq_self.mp hrest))
        · exact .inr (.inr (by omega))
    obtain ⟨hb', hfin, hsettled⟩ := hbase.onReadyRead (v := c.verdicts) hpending (by omega) hone
    rw [← heq] at hb' hfin hsettled
    refine .handed (by omega) (by omega) (hover hb' hfin) ?_
    obtain hsome | hempty | ⟨hshort, -⟩ := hsettled
    · exact .inl hsome
    · exact .inr (.inl hempty)
    · exact .inr (.inr (hstart.resolve_right (by omega)))
  · intro hstart
    obtain ⟨hmore, hlate⟩ := not_or.mp hstart
    by_cases hshort : t < a.payloadAt + 48
    · have hsame : b.onReadyRead c.verdicts = b := hbase.onReadyRead_short (by omega) (by omega)
      rw [hsame] at heq
      have hfin : s'.finish = none := (congrArg (·.finish) heq).trans hpending
      refine .short ⟨hover (heq ▸ hbase) (by simp [hfin]), hfin,
        (congrArg (·.bytesOfHandshakeReceived) heq).trans hreceived,
        (congrArg (·.handed) heq).trans hhanded, ?_, by omega, hshort, by omega⟩
      have hsock : s'.sock = b.sock := congrArg (·.sock) heq
      rw [hsock, ← List.length_pos_iff]
      omega
    · -- the read of the handshake needs the device too
      have henc := hbase.overruns (v := c.verdicts) hpending hreceived hhanded
        (List.length_pos_iff.mp (by omega)) (by omega) (by omega) (by omega)
      rw [← heq] at henc
      exact .broken (not_orderly_of_enc hstate hdec henc (by omega))

/-- The 14 bytes and one more have come, or not. -/
theorem handleCryptoSelect_at (hl : Loaded a maxEaBufSize t s) (h : Found a s)
    (hs : s.state = .foundVC) (hcome : a.vcAt + 8 < t) :
    (a.SelectOk t → a.At t (s.handleCryptoSelect c)) ∧
      (¬ a.SelectOk t → a.Doomed t (s.handleCryptoSelect c)) := by
  have hlen := hl.length
  have hle := hl.le
  have hvc := a.vcAt_le
  have hmax : (1134 : ℕ) = maxEaBufSize := rfl
  have hat : a.payloadAt = a.vcAt + 14 + a.padD.length := rfl
  by_cases hshort : t ≤ a.vcAt + 14
  · rw [handleCryptoSelect_short h (by omega)]
    refine ⟨fun hok => .found hl hs hcome hshort (hok.2 (by omega)) h, fun hnot => ?_⟩
    refine .unfinished (by_contra fun hne => hnot ⟨fun hlt => absurd hlt (by omega),
      fun _ => by omega⟩) ?_
    rw [h.decrypted]
    exact (by simp : ([] : List ℕ) ≠ List.range' a.vcAt (14 + a.padD.length))
  obtain ⟨s₁, h₁, hl₁, hlen₁, heq⟩ := handleCryptoSelect_eq (c := c) hl h (by omega)
  rw [heq]
  by_cases hover : a.payloadAt < min t maxEaBufSize
  · rw [if_neg (by omega)]
    obtain ⟨hgood, hbad⟩ := handlePadD_at hl₁ h₁ hover
    exact ⟨fun hok => hgood (hok.1 hover), fun hnot => hbad fun hstart =>
      hnot ⟨fun _ => hstart, fun hge => absurd hge (by omega)⟩⟩
  · rw [if_pos (by omega)]
    refine ⟨fun hok => .padD { hl₁ with } rfl (by omega) (by omega) (hok.2 (by omega))
      { h₁ with }, fun hnot => ?_⟩
    refine .unfinished (by_contra fun hne => hnot ⟨fun hlt => absurd hlt hover,
      fun _ => by omega⟩) fun hdec => ?_
    have hdec₁ := congrArg List.length (h₁.decrypted.symm.trans hdec)
    rw [List.length_range', List.length_range'] at hdec₁
    omega

/-- The first place in the answer where the enciphered constant stands. -/
structure FirstAt (a : Answerer c) (q : ℕ) : Prop where
  ge : 96 ≤ q
  vc : (a.stream.drop q).take 8 = a.encVC
  first : ∀ k, 96 ≤ k → k < q → (a.stream.drop k).take 8 ≠ a.encVC

/-- The constant and one byte more have come, or not, or it is looked for in vain. -/
theorem findVC_at (hfirst : a.FirstAt a.vcAt) (hl : Loaded a maxEaBufSize t s)
    (h : Searching a s) (hs : s.state = .gotYB) :
    (¬ (t = 616 ∧ a.vcAt = 608) ∧ a.SelectOk t → a.At t (s.findVC c)) ∧
      (¬ (¬ (t = 616 ∧ a.vcAt = 608) ∧ a.SelectOk t) → a.Doomed t (s.findVC c)) := by
  have hlen := hl.length
  have hle := hl.le
  have hvc := a.vcAt_le
  have hstream := a.length_stream
  have hmax : (1134 : ℕ) = maxEaBufSize := rfl
  have hat : a.payloadAt = a.vcAt + 14 + a.padD.length := rfl
  rw [findVC_eq hl h hfirst.ge hfirst.vc hfirst.first]
  by_cases hcome : a.vcAt + 8 < t
  · rw [if_pos (by omega)]
    have hl' : Loaded a maxEaBufSize t { s with state := .foundVC, vcOff := a.vcAt } := { hl with }
    obtain ⟨hgood, hbad⟩ := handleCryptoSelect_at hl' ⟨rfl, h.rc4, h.padDLen, h.buf, h.decrypted⟩
      rfl hcome
    exact ⟨fun hok => hgood hok.2, fun hnot => hbad fun hok => hnot ⟨by omega, hok⟩⟩
  rw [if_neg (by omega)]
  by_cases hlost : s.buf.length ≥ 616
  · rw [if_pos hlost]
    refine ⟨fun hok => absurd ⟨by omega, by omega⟩ hok.1, fun _ => .broken fun horderly => ?_⟩
    exact horderly.notFailed rfl
  · rw [if_neg hlost]
    refine ⟨fun _ => .searching hl hs (by omega) (by omega) h, fun hnot => ?_⟩
    exact absurd ⟨by omega, fun hlt => absurd hlt (by omega), fun _ => by omega⟩ hnot

/-! ## One more piece of the answer -/

theorem cutOk_iff_early {prev : ℕ} (hprev : prev ≤ a.vcAt + 14) :
    a.CutOk prev t ↔ ¬ (t = 616 ∧ a.vcAt = 608) ∧ a.SelectOk t := by
  constructor
  · rintro ⟨h1, h2, h3, -⟩
    exact ⟨h1, h2 hprev, h3 hprev⟩
  · rintro ⟨h1, h2, h3⟩
    exact ⟨h1, fun _ => h2, fun _ => h3, fun hlt => absurd hlt (by omega)⟩

theorem cutOk_iff_padD {prev : ℕ} (hge : a.vcAt + 14 < prev) (ht : prev < t) :
    a.CutOk prev t ↔ (prev < a.payloadAt → a.payloadAt ≤ t) := by
  constructor
  · rintro ⟨-, -, -, h4⟩
    exact h4 hge
  · intro h
    exact ⟨by omega, fun hle => absurd hle (by omega), fun hle => absurd hle (by omega), fun _ => h⟩

/-- A piece that comes after the handover goes to the BitTorrent handshake, unless that is
over. -/
theorem HandedOver.read (h : a.HandedOver t s) (hend : a.payloadAt ≤ t) {chunk : List UInt8}
    (hne : chunk ≠ []) (hnext : a.stream.take (t + chunk.length) = a.stream.take t ++ chunk)
    (hle : t + chunk.length ≤ a.stream.length) :
    ∃ (e : RC4Encryptor) (b : AuthenticateBase),
      e.dec = a.ciphers.dec.advance (14 + a.padD.length) ∧
      AuthenticateBase.Handing (some e) ((a.stream.take (t + chunk.length)).drop a.payloadAt) b ∧
      b = { s.toAuthenticateBase with device := s.device ++ chunk } ∧
      0 < ((a.stream.take (t + chunk.length)).drop a.payloadAt).length - b.handed.length ∧
      s.arrive c chunk = { s with
        toAuthenticateBase := if s.finish.isSome then b else b.onReadyRead c.verdicts } := by
  obtain ⟨e, hdec, hbase⟩ := h.base
  have hpos : 0 < chunk.length := List.length_pos_iff.mpr hne
  have hraw : (a.stream.take (t + chunk.length)).drop a.payloadAt
      = (a.stream.take t).drop a.payloadAt ++ chunk := by
    have := h.le
    rw [hnext, List.drop_append_of_le_length (by rw [List.length_take]; omega)]
  have hmore := hbase.arrive chunk
  rw [← hraw] at hmore
  obtain ⟨b, hb⟩ : ∃ b, b = { s.toAuthenticateBase with device := s.device ++ chunk } := ⟨_, rfl⟩
  rw [← hb] at hmore
  have hav : 0 < ((a.stream.take (t + chunk.length)).drop a.payloadAt).length
      - b.handed.length := by
    have hle' := hbase.le
    have hsame : b.handed = s.handed := by rw [hb]
    rw [length_raw h.le] at hle'
    rw [length_raw hle, hsame]
    omega
  refine ⟨e, b, hdec, hmore, hb, hav, ?_⟩
  obtain ⟨s', hs'⟩ : ∃ s', s' = { s with toAuthenticateBase := b } := ⟨_, rfl⟩
  have hfin : s'.finish = s.finish := by rw [hs', hb]
  have hba : s'.sock.bytesAvailable s'.device ≠ 0 := by
    have hba : b.sock.bytesAvailable b.device ≠ 0 := by
      rw [hmore.available]
      omega
    rw [hs']
    exact hba
  have hst : s'.state = .normalHandshake := by rw [hs']; exact h.state
  have hread : s.arrive c chunk = s'.onReadyRead c := by
    rw [EncryptedAuthenticate.arrive, hs', hb]
  rw [hread, onReadyRead, hfin]
  split
  · rw [hs']
  · simp only [hba, if_false, hst]
    rw [baseOnReadyRead, hs']

/-- More comes after the handover. -/
theorem HandedOver.arrive (h : a.HandedOver t s) (hsettled : a.Settled s) (hend : a.payloadAt ≤ t)
    {chunk : List UInt8} (hne : chunk ≠ [])
    (hnext : a.stream.take (t + chunk.length) = a.stream.take t ++ chunk)
    (hle : t + chunk.length ≤ a.stream.length) :
    a.HandedOver (t + chunk.length) (s.arrive c chunk) ∧ a.Settled (s.arrive c chunk) := by
  obtain ⟨e, b, hdec, hmore, hb, hav, heq⟩ := h.read (c := c) hend hne hnext hle
  have hstream := a.length_stream
  have hlen := length_raw (a := a) hle
  have hfin : b.finish = s.finish := by rw [hb]
  have hsock : b.sock = s.sock := by rw [hb]
  rw [heq]
  by_cases hover : s.finish.isSome
  · -- the authentication is over; the bytes stay in the device
    rw [if_pos hover]
    refine ⟨⟨hle, h.state, ?_, h.decrypted, h.come, h.fits, e, hdec, hmore⟩, .inl ?_⟩
    · show b.finish ≠ _
      rw [hfin]
      exact h.notFailed
    · show b.finish.isSome
      rw [hfin]
      exact hover
  · rw [if_neg hover]
    have hpending : b.finish = none := by
      rw [hfin]
      exact Option.not_isSome_iff_eq_none.mp hover
    have hone : 48 ≤ ((a.stream.take (t + chunk.length)).drop a.payloadAt).length
        - b.handed.length → b.OneSource := by
      intro hlong
      obtain hsome | hnil | hsmall := hsettled
      · exact absurd hsome hover
      · exact .inl (by rw [hsock]; exact hnil)
      · omega
    obtain ⟨hb', hnot, hnow⟩ := hmore.onReadyRead (v := c.verdicts) hpending hav hone
    refine ⟨⟨hle, h.state, hnot, h.decrypted, h.come, h.fits, e, hdec, hb'⟩, ?_⟩
    obtain hsome | hnil | ⟨-, hsame⟩ := hnow
    · exact .inl hsome
    · exact .inr (.inl hnil)
    · obtain hsome | hnil | hsmall := hsettled
      · exact absurd hsome hover
      · refine .inr (.inl ?_)
        show (b.onReadyRead c.verdicts).sock.unread = []
        rw [hsame, hsock]
        exact hnil
      · exact .inr (.inr hsmall)

section
variable {chunk : List UInt8}

/-- While the length of PadD is not known, a piece fills the buffer and calls the handler. -/
theorem front_arrive (hl : Loaded a maxEaBufSize t s) (hpad : s.padDLen = 0)
    (hbuf : s.buf = a.stream.take s.buf.length) (hne : chunk ≠ [])
    (hnext : a.stream.take (t + chunk.length) = a.stream.take t ++ chunk)
    (hle : t + chunk.length ≤ a.stream.length) (hs : s.state ≠ .normalHandshake)
    (hs' : s.state ≠ .notConnected) :
    ∃ sock device buf, ∃ s₁ : EncryptedAuthenticate,
      s₁ = { s with sock := sock, device := device, buf := buf } ∧
      buf = a.stream.take buf.length ∧ Loaded a maxEaBufSize (t + chunk.length) s₁ ∧
      EncryptedAuthenticate.arrive c s chunk =
        handle c (min (t + chunk.length) maxEaBufSize - s.buf.length) s₁ := by
  have hlen := hl.length
  have hlt := hl.le
  have hroom : s.room = maxEaBufSize := by simp [room, hpad]
  obtain ⟨sock, device, s₁, hs₁, hl₁, heq⟩ := arrive_eq (c := c) hl (by rw [hroom]; omega) (by omega)
    hne hnext hle hs hs'
  rw [hroom] at hs₁ hl₁ heq
  have hlen₁ := hl₁.length
  have hall : (s.buf ++ (a.stream.take (min (t + chunk.length) maxEaBufSize)).drop
      s.buf.length).drop 0 = (a.stream.take (min (t + chunk.length) maxEaBufSize)).drop 0 :=
    Pieces.extend_drop rfl (by omega) (by omega) (Nat.zero_le _) (by rw [← hbuf])
  rw [List.drop_zero, List.drop_zero] at hall
  rw [hall] at hs₁
  refine ⟨sock, device, _, s₁, hs₁, ?_, hl₁, heq⟩
  rw [List.length_take]
  congr 1
  omega

/-- The last piece of PadD comes, or PadD had come before: it is deciphered, and what is
behind it stays in the device. -/
theorem padD_arrive (hl : Loaded a maxEaBufSize t s) (hs : s.state = .waitForPadD)
    (hge : a.vcAt + 14 < t) (ht : min t maxEaBufSize ≤ a.payloadAt) (h : VCDone a s)
    (hne : chunk ≠ []) (hnext : a.stream.take (t + chunk.length) = a.stream.take t ++ chunk)
    (hle : t + chunk.length ≤ a.stream.length) :
    (a.payloadAt ≤ t + chunk.length → a.HandedOver (t + chunk.length) (s.arrive c chunk) ∧
        a.Settled (s.arrive c chunk)) ∧
      (t + chunk.length < a.payloadAt → ¬ a.Orderly (s.arrive c chunk)) := by
  have hlen := hl.length
  have hvc := a.vcAt_le
  have hfit := a.payloadAt_le
  have hmax : (1134 : ℕ) = maxEaBufSize := rfl
  have hat : a.payloadAt = a.vcAt + 14 + a.padD.length := rfl
  have hroom : s.room = a.payloadAt := by
    have hoff : s.vcOff + 14 + s.padDLen = a.payloadAt := by rw [h.vcOff, h.padDLen, hat]
    rw [room, h.padDLen, if_pos (by omega), ← h.padDLen, hoff, min_eq_right hfit]
  obtain ⟨sock, device, s₁, hs₁, hl₁, heq⟩ := arrive_eq (c := c) hl (by omega) (by omega)
    hne hnext hle (by simp [hs]) (by simp [hs])
  rw [hroom] at hs₁ hl₁
  have hst : s₁.state = .waitForPadD := by rw [hs₁]; exact hs
  have hlen₁ := hl₁.length
  have hrest : s₁.buf.drop (a.vcAt + 14) = (a.stream.take s₁.buf.length).drop (a.vcAt + 14) := by
    have hlt := hl.le
    rw [hlen₁, hs₁]
    exact Pieces.extend_drop rfl (by omega) (by omega) (by omega) h.rest
  have h₁ : VCDone a s₁ := by
    subst hs₁
    exact { h with rest := hrest }
  obtain ⟨hdecrypted, hlength, hstate⟩ := handlePadD_decrypted (c := c) h₁
  rw [heq, handle, hst]
  dsimp only
  constructor
  · intro hall
    obtain ⟨e, b, hdec, hbase, hpending, hunread, hb⟩ :=
      handlePadD_all (c := c) hl₁ h₁ (by omega)
    rw [← hb] at hbase hpending hunread
    exact ⟨⟨hle, hstate, by simp [hpending], hdecrypted, by omega, by omega, e, hdec, hbase⟩,
      .inr (.inl hunread)⟩
  · intro hshort horderly
    -- the last byte of PadD has not come
    have hcome := horderly.come (a.payloadAt - 1) (by
      rw [hdecrypted, List.mem_range'_1]
      omega)
    omega

/-- **The step lemma.**  A piece of the right kind brings a good run on; any other one
loses it. -/
theorem At.arrive (hfirst : a.FirstAt a.vcAt) (h : a.At t s) (hne : chunk ≠ [])
    (hnext : a.stream.take (t + chunk.length) = a.stream.take t ++ chunk)
    (hle : t + chunk.length ≤ a.stream.length) :
    (a.CutOk t (t + chunk.length) → a.At (t + chunk.length) (s.arrive c chunk)) ∧
      (¬ a.CutOk t (t + chunk.length) → a.Doomed (t + chunk.length) (s.arrive c chunk)) := by
  have hpos : 0 < chunk.length := List.length_pos_iff.mpr hne
  cases h with
  | searching hl hs ht hmore h =>
    obtain ⟨sock, device, buf, s₁, hs₁, hbuf, hl₁, heq⟩ := front_arrive (c := c) hl h.padDLen h.buf
      hne hnext hle (by simp [hs]) (by simp [hs])
    have hst : s₁.state = .gotYB := by rw [hs₁]; exact hs
    have h₁ : Searching a s₁ := by
      rw [hs₁]
      exact { h with buf := hbuf }
    rw [cutOk_iff_early (by omega), heq, handle, hst]
    exact findVC_at hfirst hl₁ h₁ hst
  | found hl hs hge ht hmore h =>
    obtain ⟨sock, device, buf, s₁, hs₁, hbuf, hl₁, heq⟩ := front_arrive (c := c) hl h.padDLen h.buf
      hne hnext hle (by simp [hs]) (by simp [hs])
    have hst : s₁.state = .foundVC := by rw [hs₁]; exact hs
    have h₁ : Found a s₁ := by
      rw [hs₁]
      exact { h with buf := hbuf }
    rw [cutOk_iff_early (by omega), heq, handle, hst]
    obtain ⟨hgood, hbad⟩ := handleCryptoSelect_at hl₁ h₁ hst (by omega)
    exact ⟨fun hok => hgood hok.2, fun hnot => hbad fun hok => hnot ⟨by omega, hok⟩⟩
  | padD hl hs hge ht hmore h =>
    obtain ⟨hall, hshort⟩ := padD_arrive (c := c) hl hs hge ht h hne hnext hle
    rw [cutOk_iff_padD hge (by omega)]
    constructor
    · intro hok
      have hdone : a.payloadAt ≤ t + chunk.length := by
        by_cases hlt : t < a.payloadAt
        · exact hok hlt
        · omega
      obtain ⟨hover, hsettled⟩ := hall hdone
      exact .handed (by omega) hdone hover hsettled
    · intro hnot
      exact .broken (hshort (by omega))
  | handed hge ht h hsettled =>
    obtain ⟨hover, hsettled'⟩ := h.arrive (c := c) hsettled ht hne hnext hle
    refine ⟨fun _ => .handed (by omega) (by omega) hover hsettled', fun hnot => absurd ?_ hnot⟩
    exact (cutOk_iff_padD hge (by omega)).mpr fun hlt => absurd hlt (by omega)

end

/-! ## Lost runs -/

section
variable {chunk : List UInt8}

/-- Too little was put back for the first read: it is still too little, or the read needs
the device too and runs the cipher twice. -/
theorem Short.arrive (h : a.Short t s) (hne : chunk ≠ [])
    (hnext : a.stream.take (t + chunk.length) = a.stream.take t ++ chunk)
    (hle : t + chunk.length ≤ a.stream.length) :
    a.Short (t + chunk.length) (s.arrive c chunk) ∨ ¬ a.Orderly (s.arrive c chunk) := by
  obtain ⟨e, b, hdec, hmore, hb, hav, heq⟩ := h.handedOver.read (c := c) h.begun hne hnext hle
  have hpos : 0 < chunk.length := List.length_pos_iff.mpr hne
  have hlen := length_raw (a := a) hle
  have hbegun := h.begun
  have hshort := h.short
  have hsame : b.sock = s.sock ∧ b.finish = none ∧ b.bytesOfHandshakeReceived = 0 ∧
      b.handed = [] := by
    rw [hb]
    exact ⟨rfl, h.pending, h.received, h.handed⟩
  obtain ⟨hsock, hpending, hreceived, hhanded⟩ := hsame
  have hnil : b.handed.length = 0 := by rw [hhanded]; rfl
  have hunread : b.sock.unread ≠ [] := by
    rw [hsock]
    exact h.unread
  rw [heq, h.pending, if_neg (by simp)]
  by_cases hstill : t + chunk.length < a.payloadAt + 48
  · have hidle : b.onReadyRead c.verdicts = b := hmore.onReadyRead_short hav (by omega)
    rw [hidle]
    refine .inl ⟨⟨hle, h.handedOver.state, ?_, h.handedOver.decrypted, h.handedOver.come,
      h.handedOver.fits, e, hdec, hmore⟩, hpending, hreceived, hhanded, hunread, by omega, hstill,
      h.more⟩
    show b.finish ≠ _
    simp [hpending]
  · -- all that was put back is among the bytes that had come before
    have hput : b.sock.unread.length ≤ t - a.payloadAt := by
      obtain ⟨e', -, hold⟩ := h.handedOver.base
      have hrest := congrArg List.length hold.rest
      rw [List.length_append, List.length_drop, length_raw h.handedOver.le] at hrest
      rw [hsock]
      omega
    have henc := hmore.overruns (v := c.verdicts) hpending hreceived hhanded hunread (by omega)
      (by omega) (by omega)
    exact .inr (not_orderly_of_enc (s := { s with
      toAuthenticateBase := b.onReadyRead c.verdicts }) h.handedOver.state hdec henc
      (List.length_pos_iff.mpr hunread))

end

/-- A doomed run breaks the law. -/
theorem Doomed.run : ∀ (chunks : List (List UInt8)) (t : ℕ) (s : EncryptedAuthenticate),
    a.Doomed t s → t ≤ a.stream.length → (∀ chunk ∈ chunks, chunk ≠ []) →
    a.stream = a.stream.take t ++ chunks.flatten →
    ¬ (AllStates (EncryptedAuthenticate.arrive c) a.Orderly s chunks ∧
      a.Completed (run (EncryptedAuthenticate.arrive c) s chunks)) := by
  intro chunks
  induction chunks with
  | nil =>
    rintro t s h hle - hflat ⟨hall, hdone⟩
    have hend := Pieces.eq_length_of_no_pieces hle hflat
    have hlen := a.length_stream
    cases h with
    | broken h => exact h hall
    | unfinished _ h => exact h hdone.decrypted
    | short h =>
      have hshort := h.short
      have hmore := h.more
      omega
  | cons chunk chunks ih =>
    rintro t s h hle hne hflat ⟨hall, hdone⟩
    obtain ⟨hnext, hle', hrest⟩ := Pieces.next_piece hle hflat
    have hchunk := hne chunk (List.mem_cons_self ..)
    have hchunks : ∀ x ∈ chunks, x ≠ [] := fun x hx => hne x (List.mem_cons_of_mem _ hx)
    have hpos : 0 < chunk.length := List.length_pos_iff.mpr hchunk
    cases h with
    | broken h => exact h hall.1
    | unfinished ht _ => omega
    | short h =>
      obtain h | h := h.arrive (c := c) hchunk hnext hle'
      · exact ih _ _ (.short h) hle' hchunks hrest ⟨hall.2, hdone⟩
      · exact h hall.2.head

/-- A run from a good state is good as long as the pieces are of the right kind. -/
theorem At.run (hfirst : a.FirstAt a.vcAt) :
    ∀ (chunks : List (List UInt8)) (t : ℕ) (s : EncryptedAuthenticate),
    a.At t s → t ≤ a.stream.length → (∀ chunk ∈ chunks, chunk ≠ []) →
    a.stream = a.stream.take t ++ chunks.flatten →
    (AllStates (EncryptedAuthenticate.arrive c) a.Orderly s chunks ∧
        a.Completed (run (EncryptedAuthenticate.arrive c) s chunks) ↔
      AllSteps (fun n (chunk : List UInt8) => n + chunk.length)
        (fun n chunk => a.CutOk n (n + chunk.length)) t chunks) := by
  intro chunks
  induction chunks with
  | nil =>
    intro t s h hle _ hflat
    have hend := Pieces.eq_length_of_no_pieces hle hflat
    subst hend
    exact ⟨fun _ => trivial, fun _ => ⟨h.orderly, h.completed⟩⟩
  | cons chunk chunks ih =>
    intro t s h hle hne hflat
    obtain ⟨hnext, hle', hrest⟩ := Pieces.next_piece hle hflat
    have hchunk := hne chunk (List.mem_cons_self ..)
    have hchunks : ∀ x ∈ chunks, x ≠ [] := fun x hx => hne x (List.mem_cons_of_mem _ hx)
    obtain ⟨hgood, hbad⟩ := h.arrive (c := c) hfirst hchunk hnext hle'
    by_cases hcut : a.CutOk t (t + chunk.length)
    · have hih := ih _ _ (hgood hcut) hle' hchunks hrest
      constructor
      · rintro ⟨hall, hdone⟩
        exact ⟨hcut, hih.mp ⟨hall.2, hdone⟩⟩
      · rintro ⟨-, hcuts⟩
        obtain ⟨hall, hdone⟩ := hih.mpr hcuts
        exact ⟨⟨h.orderly, hall⟩, hdone⟩
    · constructor
      · rintro ⟨hall, hdone⟩
        exact absurd ⟨hall.2, hdone⟩ (Doomed.run chunks _ _ (hbad hcut) hle' hchunks hrest)
      · rintro ⟨hok, -⟩
        exact absurd hok hcut

/-! ## A constant in PadB -/

/-- Nothing is deciphered, and the constant was found, or will be, at byte `q`. -/
inductive Astray (a : Answerer c) (q t : ℕ) (s : EncryptedAuthenticate) : Prop
  | searching (hl : Loaded a maxEaBufSize t s) (hs : s.state = .gotYB) (ht : t ≤ q + 8)
      (h : Searching a s)
  | found (hl : Loaded a maxEaBufSize t s) (hs : s.state = .foundVC) (ht : t ≤ q + 14)
      (hoff : s.vcOff = q) (hrc4 : ∃ e, s.ourRc4 = some e) (hpad : s.padDLen = 0)
      (hbuf : s.buf = a.stream.take s.buf.length) (hdec : s.decrypted = [])

theorem handlePadD_extends (s : EncryptedAuthenticate) :
    ∃ l, (s.handlePadD c).decrypted = s.decrypted ++ l := by
  rw [handlePadD]
  split
  · exact ⟨[], (List.append_nil _).symm⟩
  · rename_i e _
    refine ⟨List.range' (s.vcOff + 14) s.padDLen, ?_⟩
    dsimp only
    by_cases hplain : (s.decryptAt e (s.vcOff + 14) s.padDLen).cryptoSelect &&& 1 ≠ 0
    · simp only [if_pos hplain]
      split
      · rfl
      · split <;> rfl
    · simp only [if_neg hplain]
      split
      · rfl
      · split <;> rfl

theorem readVC_extends (s : EncryptedAuthenticate) :
    ∃ l, (s.readVC c).decrypted = s.decrypted ++ l := by
  have hsame : ∃ l : List ℕ, s.decrypted = s.decrypted ++ l := ⟨[], (List.append_nil _).symm⟩
  rw [readVC]
  split
  · exact hsame
  split
  · dsimp only
    split
    · exact hsame
    split
    · exact hsame
    · exact handlePadD_extends _
  · exact hsame

section
variable {q : ℕ} {chunk : List UInt8}

/-- The 14 bytes behind the wrong place are deciphered as soon as they have come. -/
theorem astray_handleCryptoSelect (hq : q < a.vcAt) (hl : Loaded a maxEaBufSize t s)
    (hs : s.state = .foundVC) (hoff : s.vcOff = q) (hrc4 : ∃ e, s.ourRc4 = some e)
    (hpad : s.padDLen = 0) (hbuf : s.buf = a.stream.take s.buf.length) (hdec : s.decrypted = []) :
    a.Astray q t (s.handleCryptoSelect c) ∨ ¬ a.Orderly (s.handleCryptoSelect c) := by
  have hlen := hl.length
  have hvc := a.vcAt_le
  have hmax : (1134 : ℕ) = maxEaBufSize := rfl
  by_cases hshort : s.vcOff + 14 ≥ s.buf.length
  · have hsame : s.handleCryptoSelect c = s := by rw [handleCryptoSelect, if_pos hshort]
    rw [hsame]
    exact .inl (.found hl hs (by omega) hoff hrc4 hpad hbuf hdec)
  · obtain ⟨e, he⟩ := hrc4
    have heq : s.handleCryptoSelect c = (s.decryptAt e s.vcOff 14).readVC c := by
      rw [handleCryptoSelect, if_neg hshort, he]
    obtain ⟨l, hl'⟩ := readVC_extends (c := c) (s.decryptAt e s.vcOff 14)
    rw [← heq] at hl'
    have hfirst : (s.handleCryptoSelect c).decrypted = List.range' q 14 ++ l := by
      rw [hl']
      show s.decrypted ++ List.range' s.vcOff 14 ++ l = _
      rw [hdec, hoff, List.nil_append]
    refine .inr fun horderly => ?_
    have hdec' := horderly.decrypted
    have hhead := congrArg List.head? hdec'
    rw [hfirst] at hhead
    simp [List.range'_succ] at hhead
    omega

theorem astray_findVC (hfirst : a.FirstAt q) (hq : q < a.vcAt) (hl : Loaded a maxEaBufSize t s)
    (h : Searching a s) (hs : s.state = .gotYB) :
    a.Astray q t (s.findVC c) ∨ ¬ a.Orderly (s.findVC c) := by
  have hlen := hl.length
  have hvc := a.vcAt_le
  have hmax : (1134 : ℕ) = maxEaBufSize := rfl
  rw [findVC_eq hl h hfirst.ge hfirst.vc hfirst.first]
  split
  · obtain ⟨e, he, -⟩ := h.rc4
    exact astray_handleCryptoSelect hq { hl with } rfl rfl ⟨e, he⟩ h.padDLen h.buf h.decrypted
  split
  · exact .inr fun horderly => horderly.notFailed rfl
  · exact .inl (.searching hl hs (by omega) h)

theorem Astray.arrive (hfirst : a.FirstAt q) (hq : q < a.vcAt) (h : a.Astray q t s)
    (hne : chunk ≠ []) (hnext : a.stream.take (t + chunk.length) = a.stream.take t ++ chunk)
    (hle : t + chunk.length ≤ a.stream.length) :
    a.Astray q (t + chunk.length) (s.arrive c chunk) ∨ ¬ a.Orderly (s.arrive c chunk) := by
  cases h with
  | searching hl hs ht h =>
    obtain ⟨sock, device, buf, s₁, hs₁, hbuf, hl₁, heq⟩ := front_arrive (c := c) hl h.padDLen h.buf
      hne hnext hle (by simp [hs]) (by simp [hs])
    have hst : s₁.state = .gotYB := by rw [hs₁]; exact hs
    have h₁ : Searching a s₁ := by
      rw [hs₁]
      exact { h with buf := hbuf }
    rw [heq, handle, hst]
    exact astray_findVC hfirst hq hl₁ h₁ hst
  | found hl hs ht hoff hrc4 hpad hbuf hdec =>
    obtain ⟨sock, device, buf, s₁, hs₁, hbuf₁, hl₁, heq⟩ := front_arrive (c := c) hl hpad hbuf
      hne hnext hle (by simp [hs]) (by simp [hs])
    have hst : s₁.state = .foundVC := by rw [hs₁]; exact hs
    rw [heq, handle, hst]
    exact astray_handleCryptoSelect hq hl₁ hst (by rw [hs₁]; exact hoff) (by rw [hs₁]; exact hrc4)
      (by rw [hs₁]; exact hpad) (by rw [hs₁]; exact hbuf₁) (by rw [hs₁]; exact hdec)

/-- A run that finds the constant too early breaks the law. -/
theorem Astray.run (hfirst : a.FirstAt q) (hq : q < a.vcAt) :
    ∀ (chunks : List (List UInt8)) (t : ℕ) (s : EncryptedAuthenticate),
    a.Astray q t s → t ≤ a.stream.length → (∀ chunk ∈ chunks, chunk ≠ []) →
    a.stream = a.stream.take t ++ chunks.flatten →
    ¬ AllStates (EncryptedAuthenticate.arrive c) a.Orderly s chunks := by
  intro chunks
  induction chunks with
  | nil =>
    intro t s h hle _ hflat _
    have hend := Pieces.eq_length_of_no_pieces hle hflat
    have hlen := a.length_stream
    have hat : a.payloadAt = a.vcAt + 14 + a.padD.length := rfl
    cases h with
    | searching _ _ ht _ => omega
    | found _ _ ht => omega
  | cons chunk chunks ih =>
    intro t s h hle hne hflat hall
    obtain ⟨hnext, hle', hrest⟩ := Pieces.next_piece hle hflat
    obtain h | h := h.arrive (c := c) hfirst hq (hne chunk (List.mem_cons_self ..)) hnext hle'
    · exact ih _ _ h hle' (fun x hx => hne x (List.mem_cons_of_mem _ hx)) hrest hall.2
    · exact h hall.2.head

end

/-- The first place of the constant is behind PadB exactly when PadB does not contain it. -/
theorem firstAt_iff : a.FirstAt a.vcAt ↔ a.VcAtEnd := by
  constructor
  · intro h k hk hvc
    refine h.first (96 + k) (by omega) (by simp only [vcAt]; omega) ?_
    rw [a.stream_drop_padB hk.le, hvc]
  · intro h
    refine ⟨by simp only [vcAt]; omega, a.stream_vc, fun k hk hlt hvc => ?_⟩
    obtain ⟨j, rfl⟩ := Nat.exists_eq_add_of_le hk
    have hj : j < a.padB.length := by
      simp only [vcAt] at hlt
      omega
    rw [a.stream_drop_padB hj.le] at hvc
    exact h j hj hvc

/-- There is a first place. -/
theorem exists_firstAt (a : Answerer c) : ∃ q, a.FirstAt q ∧ q ≤ a.vcAt := by
  classical
  have hex : ∃ q, 96 ≤ q ∧ (a.stream.drop q).take 8 = a.encVC :=
    ⟨a.vcAt, by simp only [vcAt]; omega, a.stream_vc⟩
  refine ⟨Nat.find hex, ⟨(Nat.find_spec hex).1, (Nat.find_spec hex).2, fun k hk hlt hvc => ?_⟩, ?_⟩
  · exact Nat.find_min hex hlt ⟨hk, hvc⟩
  · exact Nat.find_min' hex ⟨by simp only [vcAt]; omega, a.stream_vc⟩

/-! ## The whole run -/

theorem orderly_connected : a.Orderly (EncryptedAuthenticate.new.connected c) where
  notFailed := by simp [connected, EncryptedAuthenticate.new, AuthenticateBase.new]
  decrypted := rfl
  come := by simp [connected, EncryptedAuthenticate.new]
  fits := Nat.zero_le _
  cipher := fun h => absurd h (by simp [connected])
  handed := List.nil_prefix

/-- The first event reads the public key and leads to the search. -/
theorem first_arrive {chunk : List UInt8} (hnext : a.stream.take chunk.length = chunk)
    (hle : chunk.length ≤ a.stream.length) (h96 : 96 ≤ chunk.length) (h608 : chunk.length ≤ 608) :
    ∃ s₁, Searching a s₁ ∧ Loaded a maxEaBufSize chunk.length s₁ ∧ s₁.state = .gotYB ∧
      (EncryptedAuthenticate.new.connected c).arrive c chunk = s₁.findVC c := by
  have hmax : (1134 : ℕ) = maxEaBufSize := rfl
  have hl : Loaded a maxEaBufSize 0 (EncryptedAuthenticate.new.connected c) :=
    ⟨Nat.zero_le _, rfl, sound_new, rfl, rfl, rfl, rfl, rfl, rfl, rfl⟩
  obtain ⟨sock, device, buf, s₁, hs₁, hbuf, hl₁, heq⟩ := front_arrive hl rfl
    rfl (List.length_pos_iff.mp (by omega) : chunk ≠ []) (by simpa using hnext) (by omega)
    (by simp [connected]) (by simp [connected])
  rw [Nat.zero_add] at hl₁ heq
  have hst : s₁.state = .sentYA := by rw [hs₁]; rfl
  have hlen := hl₁.length
  obtain ⟨s₂, h₂, hl₂, hst₂, heq₂⟩ := handleYB_eq (c := c) hl₁ (by rw [hs₁]; rfl) (by rw [hs₁]; rfl)
    (by rw [hs₁]; exact hbuf) (by omega)
  refine ⟨s₂, h₂, hl₂, hst₂, ?_⟩
  rw [heq, handle, hst]
  dsimp only
  rw [if_neg (by omega), heq₂]

/-- **The initiator is independent of the segmentation, exactly.**  Whatever a responder
answers, and in whatever pieces it arrives, the initiator does its work if and only if PadB
does not contain the enciphered constant and every cut point is harmless. -/
theorem initiator_independent_iff (a : Answerer c) (d : Delivery a.stream) :
    a.Independent d ↔ a.VcAtEnd ∧ a.CutsOk d := by
  obtain ⟨⟨chunks, hne, hflat⟩, hfirst⟩ := d
  cases chunks with
  | nil => simp at hfirst
  | cons chunk chunks =>
    obtain ⟨h96, h608⟩ : 96 ≤ chunk.length ∧ chunk.length ≤ 608 := by simpa using hfirst
    have hflat' : a.stream = a.stream.take 0 ++ (chunk :: chunks).flatten := by
      rw [List.take_zero, List.nil_append, hflat]
    obtain ⟨hnext, hle, hrest⟩ := Pieces.next_piece (Nat.zero_le _) hflat'
    rw [Nat.zero_add] at hnext hle hrest
    have hchunks : ∀ x ∈ chunks, x ≠ [] := fun x hx => hne x (List.mem_cons_of_mem _ hx)
    obtain ⟨s₁, h₁, hl₁, hst, heq⟩ := first_arrive (c := c) hnext hle h96 h608
    obtain ⟨q, hplace, hq⟩ := a.exists_firstAt
    rw [Independent, CutsOk, AllStates, run_cons, heq, AllSteps, Nat.zero_add,
      cutOk_iff_early (Nat.zero_le _), and_iff_right orderly_connected]
    by_cases hend : a.VcAtEnd
    · have hvc := firstAt_iff.mpr hend
      obtain ⟨hgood, hbad⟩ := findVC_at hvc hl₁ h₁ hst
      rw [and_iff_right hend]
      by_cases hcut : ¬ (chunk.length = 616 ∧ a.vcAt = 608) ∧ a.SelectOk chunk.length
      · rw [and_iff_right hcut]
        exact At.run hvc chunks _ _ (hgood hcut) hle hchunks hrest
      · exact iff_of_false (Doomed.run chunks _ _ (hbad hcut) hle hchunks hrest) fun h => hcut h.1
    · have hlt : q < a.vcAt := by
        refine lt_of_le_of_ne hq ?_
        rintro rfl
        exact hend (firstAt_iff.mp hplace)
      refine iff_of_false (fun h => ?_) fun h => hend h.1
      obtain hastray | hbroken := astray_findVC (c := c) hplace hlt hl₁ h₁ hst
      · exact Astray.run hplace hlt chunks _ _ hastray hle hchunks hrest h.1
      · exact hbroken h.1.head

/-- An initiator. -/
def oneOpener : Opener where
  sha1 data := ⟨(data ++ List.replicate 20 0).take 20, by simp⟩
  rc4 _ n := UInt8.ofNat n
  xa := 1
  infoHash := zeroed 20
  ourPeerId := zeroed 20
  dhtRunning := false
  unencryptedConnectionsAllowed := false
  memory := zeroedMemory
  verdicts := ⟨fun _ => true, fun _ => true⟩

/-- No PadB, three bytes of PadD. -/
def threeBytesOfPadD : Answerer oneOpener where
  yb := ⟨List.replicate 95 0 ++ [2], rfl⟩
  padB := []
  cryptoSelect := 2
  padD := [0, 0, 0]
  payload := List.replicate 68 0
  padB_le := by decide
  padD_le := by decide
  notPlain := by decide
  rc4 := by decide

/-- The public key, then everything up to the first byte of PadD, its second byte alone, and
the rest. -/
def byteOfPadD : Delivery threeBytesOfPadD.stream where
  chunks := [threeBytesOfPadD.stream.take 96, (threeBytesOfPadD.stream.drop 96).take 15,
    (threeBytesOfPadD.stream.drop 111).take 1, threeBytesOfPadD.stream.drop 112]
  nonempty := by decide +kernel
  flatten := by decide +kernel
  first := by decide +kernel

/-- `handlePadD` deciphers the third byte when the second one comes. -/
theorem byteOfPadD_breaks : ¬ threeBytesOfPadD.Independent byteOfPadD := by
  intro h
  have hcome := h.1.2.2.2.1.come
  revert hcome
  decide +kernel

end Answerer

end KTorrent
