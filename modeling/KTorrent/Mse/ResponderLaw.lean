import KTorrent.Mse.ResponderStages

/-!
# The responder and the segmentation

* `Orderly` — at every moment: no failure, the stream deciphered byte by byte from the
  constant on, and only initial data and payload handed over.
* `Completed` — at the end: one reply, and all of the initial data and the payload handed
  over or ready to be read.
* `CutOk` — what a cut point must not do: end a read where the hash of PadA may not have
  come and the search gives up, or where a handler that has deciphered is entered again.
* `responder_independent_iff` — the responder does its work along a run exactly when PadA does not
  contain the hash and every cut point is of that kind.
-/

namespace KTorrent

open Mse Runs EncryptedPacketSocket EncryptedServerAuthenticate

variable {c : Responder}

namespace Initiator

/-- The law at every moment. -/
structure Orderly (i : Initiator c) (s : EncryptedServerAuthenticate) : Prop where
  notFailed : s.finish ≠ some .encrypted
  decrypted : s.decrypted = List.range' (i.req1At + 40) s.decrypted.length
  cipher : s.state = .nonEncryptedHandshake →
    s.sock.enc.map (·.dec) = some (i.ciphers.dec.advance (16 + i.padC.length + s.handed.length))
  handed : s.handed <+: i.ia ++ i.payload

/-- The law at the end. -/
structure Completed (i : Initiator c) (s : EncryptedServerAuthenticate) : Prop where
  decrypted : s.decrypted = List.range' (i.req1At + 40) (16 + i.padC.length)
  sent : s.sent = [c.yb, i.reply]
  handed : s.handed ++ decipher s.sock.enc (s.sock.unread ++ s.device) = i.ia ++ i.payload

/-- The responder does its work, in whatever pieces the stream arrives. -/
def Independent (i : Initiator c) (cut : Cutting i.stream) : Prop :=
  AllStates (EncryptedServerAuthenticate.arrive c) i.Orderly EncryptedServerAuthenticate.new cut.chunks ∧
    i.Completed (run (EncryptedServerAuthenticate.arrive c) EncryptedServerAuthenticate.new cut.chunks)

/-- The first hash does not stand in PadA already. -/
def HashAtEnd (i : Initiator c) : Prop :=
  ∀ k < i.padA.length, ((i.padA ++ (c.req1 i.secret).1).drop k).take 20 ≠ (c.req1 i.secret).1

/-- A read that takes the bytes from `prev` to `t`. -/
structure CutOk (i : Initiator c) (prev t : ℕ) : Prop where
  /-- The search does not give up before the hash has come. -/
  search : ¬ (608 < t ∧ t ≤ i.req1At + 20)
  /-- The read that completes the 14 bytes completes PadC and the length too, or leaves so
  much of PadC out that it is waited for. -/
  padC : prev < i.req1At + 54 → i.req1At + 54 ≤ t →
    t < i.req1At + 14 + i.padC.length ∨ i.iaAt ≤ t
  /-- The read that completes PadC and the length completes the initial data too, or leaves so
  much of them out that they are waited for. -/
  ia : prev < i.iaAt → i.iaAt ≤ t → t < i.req1At + 54 + i.ia.length ∨ i.iaEnd ≤ t
  /-- The read that completes the initial data brings the 48 bytes a BitTorrent handshake
  is started with, or they never come. -/
  start : prev < i.iaEnd → i.iaEnd ≤ t → i.iaAt + 48 ≤ t ∨ i.ia.length + i.payload.length < 48

/-- Every cut point is of that kind. -/
def CutsOk (i : Initiator c) (cut : Cutting i.stream) : Prop :=
  AllSteps (fun n (chunk : List UInt8) => n + chunk.length)
    (fun n chunk => i.CutOk n (n + chunk.length)) 0 cut.chunks

/-! ## A good run, byte for byte -/

/-- The initial data have come: the rest of the stream is handed over. -/
structure HandedOver (i : Initiator c) (t : ℕ) (s : EncryptedServerAuthenticate) : Prop where
  le : t ≤ i.stream.length
  state : s.state = .nonEncryptedHandshake
  notFailed : s.finish ≠ some .encrypted
  sent : s.sent = [c.yb, i.reply]
  decrypted : s.decrypted = List.range' (i.req1At + 40) (16 + i.padC.length)
  base : ∃ e : RC4Encryptor, e.dec = i.ciphers.dec.advance (16 + i.padC.length) ∧
    AuthenticateBase.Handing (some e) ((i.stream.take t).drop i.iaAt) s.toAuthenticateBase

/-- No read will need both the data put back and the device. -/
def Settled (i : Initiator c) (s : EncryptedServerAuthenticate) : Prop :=
  s.finish.isSome ∨ s.sock.unread = [] ∨ i.ia.length + i.payload.length < 48

/-- The public key is not complete. -/
structure Waiting (i : Initiator c) (t : ℕ) (s : EncryptedServerAuthenticate) : Prop where
  loaded : Loaded i t s
  state : s.state = .waitingForYA
  lt : t < 96
  buf : s.buf = i.stream.take s.buf.length
  rc4 : s.ourRc4 = none
  sent : s.sent = []
  decrypted : s.decrypted = []

/-- Where a good run is when `t` bytes have arrived. -/
inductive At (i : Initiator c) (t : ℕ) (s : EncryptedServerAuthenticate) : Prop
  | waiting (h : i.Waiting t s)
  | searching (hl : Loaded i t s) (hs : s.state = .waitingForReq1) (ht : t ≤ i.req1At + 20)
      (h : Searching i s)
  | found (hl : Loaded i t s) (hs : s.state = .foundReq1) (hge : i.req1At + 20 < t)
      (ht : t < i.req1At + 40) (h : Found i s)
  | hash (hl : Loaded i t s) (hs : s.state = .foundInfoHash) (hge : i.req1At + 20 < t)
      (ht : t < i.req1At + 54) (h : HashDone i s)
  | padC (hl : Loaded i t s) (hs : s.state = .waitForPadC) (hge : i.req1At + 54 ≤ t)
      (ht : t < i.iaAt) (h : VCDone i s)
  | ia (hl : Loaded i t s) (hs : s.state = .waitForIA) (hge : i.iaAt ≤ t) (ht : t < i.iaEnd)
      (h : PadCDone i s)
  | handed (ht : i.iaEnd ≤ t) (h : HandedOver i t s) (hsettled : i.Settled s)

variable {i : Initiator c} {t : ℕ} {s : EncryptedServerAuthenticate}

theorem Loaded.orderly (h : Loaded i t s) (hstate : s.state ≠ .nonEncryptedHandshake)
    {n : ℕ} (hdec : s.decrypted = List.range' (i.req1At + 40) n) : i.Orderly s where
  notFailed := by simp [h.pending]
  decrypted := by rw [hdec, List.length_range']
  cipher := fun hs => absurd hs hstate
  handed := by rw [h.handed]; exact List.nil_prefix

theorem HandedOver.orderly (h : i.HandedOver t s) : i.Orderly s := by
  obtain ⟨e, hdec, hbase⟩ := h.base
  have hplain : decipher (some e) (i.stream.drop i.iaAt) = i.ia ++ i.payload := by
    show e.dec.apply _ = _
    rw [hdec, i.decipher_stream_drop]
  exact {
    notFailed := h.notFailed
    decrypted := by rw [h.decrypted, List.length_range']
    cipher := fun _ => by
      rw [hbase.enc]
      show some (e.dec.advance _) = _
      rw [hdec, KeyStream.advance_advance]
    handed := by
      have hraw : ((i.stream.take t).drop i.iaAt).take s.handed.length <+: i.stream.drop i.iaAt := by
        rw [List.drop_take]
        exact (List.take_prefix _ _).trans (List.take_prefix _ _)
      rw [← hplain, hbase.handed]
      exact decipher_prefix _ hraw }

theorem At.orderly (h : i.At t s) : i.Orderly s := by
  cases h with
  | waiting h => exact Loaded.orderly h.loaded (by simp [h.state]) (n := 0) h.decrypted
  | searching hl hs _ h => exact Loaded.orderly hl (by simp [hs]) (n := 0) h.decrypted
  | found hl hs _ _ h => exact Loaded.orderly hl (by simp [hs]) (n := 0) h.decrypted
  | hash hl hs _ _ h => exact Loaded.orderly hl (by simp [hs]) (n := 0) h.decrypted
  | padC hl hs _ _ h => exact Loaded.orderly hl (by simp [hs]) h.decrypted
  | ia hl hs _ _ h => exact Loaded.orderly hl (by simp [hs]) h.decrypted
  | handed _ h _ => exact h.orderly

/-- At the end of the stream everything is done. -/
theorem At.completed (h : i.At i.stream.length s) : i.Completed s := by
  have hlen := i.length_stream
  have hpos := i.ia_pos
  have hend : i.iaAt ≤ i.iaEnd := Nat.le_add_right _ _
  have hat : i.iaAt = i.req1At + 56 + i.padC.length := rfl
  cases h with
  | handed _ h _ =>
    obtain ⟨e, hdec, hbase⟩ := h.base
    refine ⟨h.decrypted, h.sent, ?_⟩
    rw [hbase.due, List.take_length]
    show e.dec.apply _ = _
    rw [hdec, i.decipher_stream_drop]
  | waiting h =>
    have hlt := h.lt
    simp only [Initiator.req1At] at hat
    omega
  | searching _ _ ht => omega
  | found _ _ _ ht => omega
  | hash _ _ _ ht => omega
  | padC _ _ _ ht => omega
  | ia _ _ _ ht => omega

/-! ## A run that is lost -/

/-- A handler that has deciphered will be entered again. -/
def Again (i : Initiator c) (s : EncryptedServerAuthenticate) : Prop :=
  (s.state = .foundInfoHash ∧ s.req1Off = i.req1At ∧ i.req1At + 54 ≤ s.buf.length ∧
    (∃ e, s.ourRc4 = some e) ∧ ∃ n, 0 < n ∧ s.decrypted = List.range' (i.req1At + 40) n) ∨
  (s.state = .waitForPadC ∧ i.iaAt ≤ s.buf.length ∧ PadCDone i s)

/-- Too little was put back for the first read, and more will come. -/
structure Short (i : Initiator c) (t : ℕ) (s : EncryptedServerAuthenticate) : Prop where
  handedOver : i.HandedOver t s
  pending : s.finish = none
  received : s.bytesOfHandshakeReceived = 0
  handed : s.handed = []
  unread : s.sock.unread ≠ []
  begun : i.iaEnd ≤ t
  short : t < i.iaAt + 48
  more : 48 ≤ i.ia.length + i.payload.length

/-- The law is broken, or will be when the rest of the stream comes. -/
inductive Doomed (i : Initiator c) (t : ℕ) (s : EncryptedServerAuthenticate) : Prop
  | broken (h : ¬ i.Orderly s)
  | again (hl : Loaded i t s) (ht : t < i.iaEnd) (h : i.Again s)
  | short (h : i.Short t s)

/-! ## From one stage to the next -/

/-- The initial data bring the 48 bytes the BitTorrent handshake is started with. -/
def StartOk (i : Initiator c) (t : ℕ) : Prop :=
  i.iaAt + 48 ≤ t ∨ i.ia.length + i.payload.length < 48

/-- So does a read that completes PadC, or it leaves enough out. -/
def IaOk (i : Initiator c) (t : ℕ) : Prop :=
  (t < i.req1At + 54 + i.ia.length ∨ i.iaEnd ≤ t) ∧ (i.iaEnd ≤ t → i.StartOk t)

/-- So does a read that completes the 14 bytes. -/
def PadCOk (i : Initiator c) (t : ℕ) : Prop :=
  (t < i.req1At + 14 + i.padC.length ∨ i.iaAt ≤ t) ∧ (i.iaAt ≤ t → i.IaOk t)

theorem length_raw (hle : t ≤ i.stream.length) :
    ((i.stream.take t).drop i.iaAt).length = t - i.iaAt := by
  rw [List.length_drop, List.length_take, min_eq_left hle]

/-- The initial data are complete. -/
theorem handleIA_at (hl : Loaded i t s) (h : PadCDone i s) (ht : i.iaEnd ≤ t) :
    (i.StartOk t → i.At t (s.handleIA c)) ∧ (¬ i.StartOk t → i.Doomed t (s.handleIA c)) := by
  have hfit := i.iaEnd_le
  have hfit68 := i.iaAt_add_68_le
  have hlen := hl.length
  have hle := hl.le
  have hpos := i.ia_pos
  have hend : i.iaEnd = i.iaAt + i.ia.length := rfl
  obtain ⟨e, b, hdec, hbase, hpending, hreceived, hhanded, hunread, heq⟩ :=
    handleIA_eq hl h (by omega)
  have hraw := length_raw (i := i) hle
  have hav : 0 < ((i.stream.take t).drop i.iaAt).length - b.handed.length := by
    rw [hraw, hhanded, List.length_nil]
    omega
  have hover : ∀ b', AuthenticateBase.Handing (some e) ((i.stream.take t).drop i.iaAt) b' →
      b'.finish ≠ some .encrypted → i.HandedOver t { s with
        toAuthenticateBase := b', ourRc4 := none, state := .nonEncryptedHandshake } :=
    fun b' hb' hfin => ⟨hle, rfl, hfin, h.sent, h.decrypted, e, hdec, hb'⟩
  rw [heq]
  constructor
  · intro hstart
    have hone : 48 ≤ ((i.stream.take t).drop i.iaAt).length - b.handed.length → b.OneSource := by
      intro _
      by_cases hcap : t ≤ maxSeaBufSize
      · -- everything was put back
        have hrest := hbase.rest
        rw [hunread, hhanded, List.length_nil, List.drop_zero, hlen, min_eq_left hcap] at hrest
        exact .inr (.inl (List.append_right_eq_self.mp hrest))
      · refine .inr (.inr ?_)
        rw [hunread, length_raw (by omega)]
        omega
    obtain ⟨hb', hfin, hsettled⟩ := hbase.onReadyRead (v := c.verdicts) hpending hav hone
    refine .handed ht (hover _ hb' hfin) ?_
    obtain hsome | hnil | ⟨hshort, -⟩ := hsettled
    · exact .inl hsome
    · exact .inr (.inl hnil)
    · rw [hraw, hhanded, List.length_nil] at hshort
      exact .inr (.inr (hstart.resolve_left (by omega)))
  · intro hstart
    obtain ⟨hlate, hmore⟩ := not_or.mp hstart
    have hsame : b.onReadyRead c.verdicts = b := by
      refine hbase.onReadyRead_short hav ?_
      rw [hraw, hhanded, List.length_nil]
      omega
    rw [hsame]
    refine .short ⟨hover b hbase (by simp [hpending]), hpending, hreceived, hhanded, ?_, ht,
      by omega, by omega⟩
    show b.sock.unread ≠ []
    rw [hunread, ← List.length_pos_iff, length_raw (by omega)]
    omega

/-- PadC and the length behind it are complete. -/
theorem handlePadC_at (hl : Loaded i t s) (h : VCDone i s) (ht : i.iaAt ≤ t)
    (hs : s.state = .waitForPadC ∨ s.state = .foundInfoHash) :
    (i.IaOk t → i.At t (s.handlePadC c)) ∧ (¬ i.IaOk t → i.Doomed t (s.handlePadC c)) := by
  have hfit := i.iaEnd_le
  have hlen := hl.length
  have hend : i.iaEnd = i.iaAt + i.ia.length := rfl
  have hat : i.iaAt = i.req1At + 56 + i.padC.length := rfl
  obtain ⟨s₁, h₁, hl₁, hs₁, hlen₁, heq⟩ := handlePadC_eq hl h (by omega)
  rw [heq]
  by_cases hwait : t < i.req1At + 54 + i.ia.length
  · rw [if_pos (by omega)]
    refine ⟨fun _ => .ia { hl₁ with } rfl ht (by omega) { h₁ with }, fun hnot => ?_⟩
    exact absurd ⟨.inl hwait, fun hge => absurd hge (by omega)⟩ hnot
  rw [if_neg (by omega)]
  by_cases hdone : i.iaEnd ≤ t
  · obtain ⟨hgood, hbad⟩ := handleIA_at hl₁ h₁ hdone
    exact ⟨fun hok => hgood (hok.2 hdone), fun hnot => hbad fun hstart =>
      hnot ⟨.inr hdone, fun _ => hstart⟩⟩
  · -- the initial data are not complete, and the state is that of an earlier handler
    refine ⟨fun hok => absurd hok.1 (by omega), fun _ => ?_⟩
    rw [handleIA_short h₁ (by omega)]
    refine .again hl₁ (by omega) ?_
    rw [Again, hs₁]
    obtain hs | hs := hs
    · exact .inr ⟨hs, by omega, h₁⟩
    · obtain ⟨e, he, -⟩ := h₁.rc4
      exact .inl ⟨hs, h₁.req1Off, by omega, ⟨e, he⟩, _, by omega, h₁.decrypted⟩

/-- The 14 bytes are complete. -/
theorem processVC_at (hl : Loaded i t s) (h : HashDone i s) (ht : i.req1At + 54 ≤ t)
    (hs : s.state = .foundInfoHash) :
    (i.PadCOk t → i.At t (s.processVC c)) ∧ (¬ i.PadCOk t → i.Doomed t (s.processVC c)) := by
  have hfit := i.iaEnd_le
  have hlen := hl.length
  have hend : i.iaEnd = i.iaAt + i.ia.length := rfl
  have hat : i.iaAt = i.req1At + 56 + i.padC.length := rfl
  obtain ⟨s₁, h₁, hl₁, hs₁, hlen₁, heq⟩ := processVC_eq hl h (by omega)
  rw [heq]
  by_cases hwait : t < i.req1At + 14 + i.padC.length
  · rw [if_pos (by omega)]
    refine ⟨fun _ => .padC { hl₁ with } rfl ht (by omega) { h₁ with }, fun hnot => ?_⟩
    exact absurd ⟨.inl hwait, fun hge => absurd hge (by omega)⟩ hnot
  rw [if_neg (by omega)]
  by_cases hdone : i.iaAt ≤ t
  · obtain ⟨hgood, hbad⟩ := handlePadC_at hl₁ h₁ hdone (.inr (hs₁.trans hs))
    exact ⟨fun hok => hgood (hok.2 hdone), fun hnot => hbad fun hia =>
      hnot ⟨.inr hdone, fun _ => hia⟩⟩
  · refine ⟨fun hok => absurd hok.1 (by omega), fun _ => ?_⟩
    rw [handlePadC_short h₁ (by omega)]
    obtain ⟨e, he, -⟩ := h₁.rc4
    exact .again hl₁ (by omega)
      (.inl ⟨hs₁.trans hs, h₁.req1Off, by omega, ⟨e, he⟩, _, by omega, h₁.decrypted⟩)

/-- The two hashes are complete, or not. -/
theorem calculateSKey_at (hl : Loaded i t s) (h : Found i s) (hs : s.state = .foundReq1)
    (hcome : i.req1At + 20 < t) :
    ((i.req1At + 54 ≤ t → i.PadCOk t) → i.At t (s.calculateSKey c)) ∧
      (¬ (i.req1At + 54 ≤ t → i.PadCOk t) → i.Doomed t (s.calculateSKey c)) := by
  have hfit := i.iaEnd_le
  have hlen := hl.length
  have hend : i.iaEnd = i.iaAt + i.ia.length := rfl
  have hat : i.iaAt = i.req1At + 56 + i.padC.length := rfl
  by_cases hhash : t < i.req1At + 40
  · rw [calculateSKey_short h (by omega)]
    exact ⟨fun _ => .found hl hs hcome hhash h, fun hnot => absurd (fun hge => absurd hge (by omega)) hnot⟩
  obtain ⟨heq, hdone⟩ := calculateSKey_eq h (by omega)
  have hl' : Loaded i t { s with infoHash := i.infoHash, state := .foundInfoHash } := { hl with }
  rw [heq]
  by_cases hvc : t < i.req1At + 54
  · rw [processVC_short hdone (by show s.buf.length < _; omega)]
    refine ⟨fun _ => .hash { hl' with } rfl hcome hvc { hdone with rc4 := rfl }, fun hnot => ?_⟩
    exact absurd (fun hge => absurd hge (by omega)) hnot
  · obtain ⟨hgood, hbad⟩ := processVC_at hl' hdone (by omega) rfl
    exact ⟨fun hok => hgood (hok (by omega)), fun hnot => hbad fun hok => hnot fun _ => hok⟩

/-- The first place in the stream where the first hash stands. -/
structure FirstAt (i : Initiator c) (q : ℕ) : Prop where
  ge : 96 ≤ q
  hash : (i.stream.drop q).take 20 = (c.req1 i.secret).1
  first : ∀ k, 96 ≤ k → k < q → (i.stream.drop k).take 20 ≠ (c.req1 i.secret).1

/-- The hash is complete, or not, or looked for in vain. -/
theorem findReq1_at (hfirst : i.FirstAt i.req1At) (hl : Loaded i t s) (h : Searching i s)
    (hs : s.state = .waitingForReq1) :
    (¬ (608 < t ∧ t ≤ i.req1At + 20) ∧ (i.req1At + 54 ≤ t → i.PadCOk t) →
        i.At t (s.findReq1 c)) ∧
      (¬ (¬ (608 < t ∧ t ≤ i.req1At + 20) ∧ (i.req1At + 54 ≤ t → i.PadCOk t)) →
        i.Doomed t (s.findReq1 c)) := by
  have hfit := i.iaEnd_le
  have hlen := hl.length
  have hend : i.iaEnd = i.iaAt + i.ia.length := rfl
  have hat : i.iaAt = i.req1At + 56 + i.padC.length := rfl
  rw [findReq1_eq hl h hfirst.ge hfirst.hash hfirst.first]
  by_cases hcome : i.req1At + 20 < t
  · rw [if_pos (by omega)]
    have hl' : Loaded i t { s with state := .foundReq1, req1Off := i.req1At } := { hl with }
    obtain ⟨hgood, hbad⟩ := calculateSKey_at hl'
      ⟨rfl, h.secret, h.buf, h.rc4, h.sent, h.decrypted⟩ rfl hcome
    exact ⟨fun hok => hgood hok.2, fun hnot => hbad fun hok => hnot ⟨by omega, hok⟩⟩
  rw [if_neg (by omega)]
  by_cases hlost : 608 < t
  · have hlost' : 608 < s.buf.length := by
      rw [hlen, maxSeaBufSize]
      omega
    rw [if_pos hlost']
    refine ⟨fun hok => absurd ⟨hlost, by omega⟩ hok.1, fun _ => .broken fun horderly => ?_⟩
    exact horderly.notFailed rfl
  · rw [if_neg (by omega)]
    refine ⟨fun _ => .searching hl hs (by omega) h, fun hnot => ?_⟩
    exact absurd ⟨by omega, fun hge => absurd hge (by omega)⟩ hnot

/-! ## One more piece of the stream -/

theorem cutOk_iff_early {prev : ℕ} (hprev : prev ≤ i.req1At + 20) :
    i.CutOk prev t ↔
      ¬ (608 < t ∧ t ≤ i.req1At + 20) ∧ (i.req1At + 54 ≤ t → i.PadCOk t) := by
  have hpos := i.ia_pos
  have hend : i.iaEnd = i.iaAt + i.ia.length := rfl
  have hat : i.iaAt = i.req1At + 56 + i.padC.length := rfl
  constructor
  · rintro ⟨h1, h2, h3, h4⟩
    exact ⟨h1, fun hge => ⟨h2 (by omega) hge, fun hge' => ⟨h3 (by omega) hge',
      fun hge'' => h4 (by omega) hge''⟩⟩⟩
  · rintro ⟨h1, h2⟩
    exact ⟨h1, fun _ hge => (h2 hge).1, fun _ hge => ((h2 (by omega)).2 hge).1,
      fun _ hge => ((h2 (by omega)).2 (by omega)).2 hge⟩

theorem cutOk_iff_hash {prev : ℕ} (hge : i.req1At + 20 < prev) (hlt : prev < i.req1At + 54)
    (ht : prev < t) : i.CutOk prev t ↔ (i.req1At + 54 ≤ t → i.PadCOk t) := by
  have hpos := i.ia_pos
  have hend : i.iaEnd = i.iaAt + i.ia.length := rfl
  have hat : i.iaAt = i.req1At + 56 + i.padC.length := rfl
  constructor
  · rintro ⟨-, h2, h3, h4⟩ hge
    exact ⟨h2 (by omega) hge, fun hge' => ⟨h3 (by omega) hge', fun hge'' => h4 (by omega) hge''⟩⟩
  · intro h2
    exact ⟨by omega, fun _ hge => (h2 hge).1, fun _ hge => ((h2 (by omega)).2 hge).1,
      fun _ hge => ((h2 (by omega)).2 (by omega)).2 hge⟩

theorem cutOk_iff_padC {prev : ℕ} (hge : i.req1At + 54 ≤ prev) (hlt : prev < i.iaAt)
    (ht : prev < t) : i.CutOk prev t ↔ (i.iaAt ≤ t → i.IaOk t) := by
  have hend : i.iaEnd = i.iaAt + i.ia.length := rfl
  constructor
  · rintro ⟨-, -, h3, h4⟩ hge
    exact ⟨h3 hlt hge, fun hge' => h4 (by omega) hge'⟩
  · intro h
    exact ⟨by omega, fun hlt' => absurd hlt' (by omega), fun _ hge => (h hge).1,
      fun _ hge => (h (by omega)).2 hge⟩

theorem cutOk_iff_ia {prev : ℕ} (hge : i.iaAt ≤ prev) (hlt : prev < i.iaEnd) (ht : prev < t) :
    i.CutOk prev t ↔ (i.iaEnd ≤ t → i.StartOk t) := by
  have hat : i.iaAt = i.req1At + 56 + i.padC.length := rfl
  constructor
  · rintro ⟨-, -, -, h4⟩ hge
    exact h4 hlt hge
  · intro h
    exact ⟨by omega, fun hlt' => absurd hlt' (by omega), fun hlt' => absurd hlt' (by omega),
      fun _ hge => h hge⟩

theorem cutOk_late {prev : ℕ} (hge : i.iaEnd ≤ prev) (ht : prev < t) : i.CutOk prev t := by
  have hend : i.iaEnd = i.iaAt + i.ia.length := rfl
  have hat : i.iaAt = i.req1At + 56 + i.padC.length := rfl
  exact ⟨by omega, fun hlt => absurd hlt (by omega), fun hlt => absurd hlt (by omega),
    fun hlt => absurd hlt (by omega)⟩

/-- The buffer holds the stream from byte `k` on, and so it does with the next bytes. -/
theorem extend_buf {buf : List UInt8} {k m : ℕ} (hlen : buf.length = t)
    (hle : t ≤ i.stream.length) (hm : t ≤ m) (hk : k ≤ t)
    (h : buf.drop k = (i.stream.take t).drop k) :
    (buf ++ (i.stream.take m).drop t).drop k = (i.stream.take m).drop k := by
  have htake : (i.stream.take t).length = t := by rw [List.length_take, min_eq_left hle]
  have hsplit : i.stream.take m = i.stream.take t ++ (i.stream.take m).drop t := by
    conv_lhs => rw [← List.take_append_drop t (i.stream.take m)]
    rw [List.take_take, min_eq_left hm]
  conv_rhs => rw [hsplit]
  rw [List.drop_append_of_le_length (by omega), List.drop_append_of_le_length (by omega), h]

/-- A piece that comes after the handover goes to the BitTorrent handshake, unless that is
over. -/
theorem HandedOver.read (h : i.HandedOver t s) (hend : i.iaEnd ≤ t) {chunk : List UInt8}
    (hne : chunk ≠ []) (hnext : i.stream.take (t + chunk.length) = i.stream.take t ++ chunk)
    (hle : t + chunk.length ≤ i.stream.length) :
    ∃ (e : RC4Encryptor) (b : AuthenticateBase),
      e.dec = i.ciphers.dec.advance (16 + i.padC.length) ∧
      AuthenticateBase.Handing (some e) ((i.stream.take (t + chunk.length)).drop i.iaAt) b ∧
      b = { s.toAuthenticateBase with device := s.device ++ chunk } ∧
      0 < ((i.stream.take (t + chunk.length)).drop i.iaAt).length - b.handed.length ∧
      s.arrive c chunk = { s with
        toAuthenticateBase := if s.finish.isSome then b else b.onReadyRead c.verdicts } := by
  obtain ⟨e, hdec, hbase⟩ := h.base
  have hpos : 0 < chunk.length := List.length_pos_iff.mpr hne
  have hiaEnd : i.iaEnd = i.iaAt + i.ia.length := rfl
  have hraw : (i.stream.take (t + chunk.length)).drop i.iaAt
      = (i.stream.take t).drop i.iaAt ++ chunk := by
    have := h.le
    rw [hnext, List.drop_append_of_le_length (by rw [List.length_take]; omega)]
  have hmore := hbase.arrive chunk
  rw [← hraw] at hmore
  obtain ⟨b, hb⟩ : ∃ b, b = { s.toAuthenticateBase with device := s.device ++ chunk } := ⟨_, rfl⟩
  rw [← hb] at hmore
  have hav : 0 < ((i.stream.take (t + chunk.length)).drop i.iaAt).length - b.handed.length := by
    have hle' := hbase.le
    have hsame : b.handed = s.handed := by rw [hb]
    rw [length_raw h.le] at hle'
    rw [length_raw hle, hsame]
    omega
  refine ⟨e, b, hdec, hmore, hb, hav, ?_⟩
  obtain ⟨s', hs'⟩ : ∃ s', s' = { s with toAuthenticateBase := b } := ⟨_, rfl⟩
  have hfin : s'.finish = s.finish := by rw [hs', hb]
  have hba : s'.sock.bytesAvailable s'.device ≠ 0 := by
    have hba : b.sock.bytesAvailable b.device ≠ 0 := by
      rw [hmore.available]
      omega
    rw [hs']
    exact hba
  have hst : s'.state = .nonEncryptedHandshake := by rw [hs']; exact h.state
  have hread : s.arrive c chunk = s'.onReadyRead c := by
    rw [EncryptedServerAuthenticate.arrive, hs', hb]
  rw [hread, onReadyRead, hfin]
  split
  · rw [hs']
  · simp only [hba, if_false, hst]
    rw [serverOnReadyRead, hs']

/-- More comes after the handover. -/
theorem HandedOver.arrive (h : i.HandedOver t s) (hsettled : i.Settled s) (hend : i.iaEnd ≤ t)
    {chunk : List UInt8} (hne : chunk ≠ [])
    (hnext : i.stream.take (t + chunk.length) = i.stream.take t ++ chunk)
    (hle : t + chunk.length ≤ i.stream.length) :
    i.HandedOver (t + chunk.length) (s.arrive c chunk) ∧ i.Settled (s.arrive c chunk) := by
  obtain ⟨e, b, hdec, hmore, hb, hav, heq⟩ := h.read hend hne hnext hle
  have hiaEnd : i.iaEnd = i.iaAt + i.ia.length := rfl
  have hstream := i.length_stream
  have hlen := length_raw (i := i) hle
  have hfin : b.finish = s.finish := by rw [hb]
  have hsock : b.sock = s.sock := by rw [hb]
  rw [heq]
  by_cases hover : s.finish.isSome
  · -- the authentication is over; the bytes stay in the device
    rw [if_pos hover]
    refine ⟨⟨hle, h.state, ?_, h.sent, h.decrypted, e, hdec, hmore⟩, .inl ?_⟩
    · show b.finish ≠ _
      rw [hfin]
      exact h.notFailed
    · show b.finish.isSome
      rw [hfin]
      exact hover
  · rw [if_neg hover]
    have hpending : b.finish = none := by
      rw [hfin]
      exact Option.not_isSome_iff_eq_none.mp hover
    have hone : 48 ≤ ((i.stream.take (t + chunk.length)).drop i.iaAt).length - b.handed.length →
        b.OneSource := by
      intro hlong
      obtain hsome | hnil | hsmall := hsettled
      · exact absurd hsome hover
      · exact .inl (by rw [hsock]; exact hnil)
      · omega
    obtain ⟨hb', hnot, hnow⟩ := hmore.onReadyRead (v := c.verdicts) hpending hav hone
    refine ⟨⟨hle, h.state, hnot, h.sent, h.decrypted, e, hdec, hb'⟩, ?_⟩
    obtain hsome | hnil | ⟨-, hsame⟩ := hnow
    · exact .inl hsome
    · exact .inr (.inl hnil)
    · obtain hsome | hnil | hsmall := hsettled
      · exact absurd hsome hover
      · refine .inr (.inl ?_)
        show (b.onReadyRead c.verdicts).sock.unread = []
        rw [hsame, hsock]
        exact hnil
      · exact .inr (.inr hsmall)

section
variable {chunk : List UInt8} {s₁ : EncryptedServerAuthenticate}

/-- What the buffer holds from byte `k` on, after the read. -/
theorem rest_arrive {k : ℕ} (hl : Loaded i t s) (ht : t < maxSeaBufSize)
    (hl₁ : Loaded i (t + chunk.length) s₁) (hk : k ≤ t)
    (hs : s.buf.drop k = (i.stream.take s.buf.length).drop k)
    (heq : s₁.buf = s.buf ++ (i.stream.take (min (t + chunk.length) maxSeaBufSize)).drop t) :
    s₁.buf.drop k = (i.stream.take s₁.buf.length).drop k := by
  have hlen : s.buf.length = t := by rw [hl.length, min_eq_left ht.le]
  rw [hl₁.length, heq]
  exact extend_buf hlen hl.le (by omega) hk (hlen ▸ hs)

theorem buf_arrive (hl : Loaded i t s) (ht : t < maxSeaBufSize)
    (hl₁ : Loaded i (t + chunk.length) s₁) (hs : s.buf = i.stream.take s.buf.length)
    (heq : s₁.buf = s.buf ++ (i.stream.take (min (t + chunk.length) maxSeaBufSize)).drop t) :
    s₁.buf = i.stream.take s₁.buf.length := by
  have hzero := rest_arrive hl ht hl₁ (Nat.zero_le _) (by rw [← hs]) heq
  rwa [List.drop_zero, List.drop_zero] at hzero

/-- While the hash is looked for, a piece leads to the search again. -/
theorem searching_arrive (hl : Loaded i t s) (ht : t < maxSeaBufSize)
    (hs : s.state = .waitingForReq1) (h : Searching i s) (hne : chunk ≠ [])
    (hnext : i.stream.take (t + chunk.length) = i.stream.take t ++ chunk)
    (hle : t + chunk.length ≤ i.stream.length) :
    ∃ s₂, Loaded i (t + chunk.length) s₂ ∧ Searching i s₂ ∧ s₂.state = .waitingForReq1 ∧
      s.arrive c chunk = s₂.findReq1 c := by
  obtain ⟨sock, device, s₁, hs₁, hl₁, heq⟩ := arrive_eq hl ht hne hnext hle (by simp [hs])
  have hst : s₁.state = .waitingForReq1 := by rw [hs₁]; exact hs
  have hall := buf_arrive hl ht hl₁ h.buf (by rw [hs₁])
  refine ⟨s₁, hl₁, ?_, hst, by rw [heq, handle, hst]⟩
  subst hs₁
  exact { h with buf := hall }

/-- While the public key is not complete, a piece leaves it so, or leads to the search. -/
theorem Waiting.arrive (h : i.Waiting t s) (hne : chunk ≠ [])
    (hnext : i.stream.take (t + chunk.length) = i.stream.take t ++ chunk)
    (hle : t + chunk.length ≤ i.stream.length) :
    i.Waiting (t + chunk.length) (s.arrive c chunk) ∨
      ∃ s₂, Loaded i (t + chunk.length) s₂ ∧ Searching i s₂ ∧ s₂.state = .waitingForReq1 ∧
        s.arrive c chunk = s₂.findReq1 c := by
  have hlt := h.lt
  have hmax : (96 : ℕ) ≤ maxSeaBufSize := by decide
  have ht : t < maxSeaBufSize := by omega
  obtain ⟨sock, device, s₁, hs₁, hl₁, heq⟩ := arrive_eq h.loaded ht hne hnext hle
    (by simp [h.state])
  have hst : s₁.state = .waitingForYA := by rw [hs₁]; exact h.state
  have hall := buf_arrive h.loaded ht hl₁ h.buf (by rw [hs₁])
  have hlen := hl₁.length
  have hrest : s₁.ourRc4 = none ∧ s₁.sent = [] ∧ s₁.decrypted = [] := by
    subst hs₁
    exact ⟨h.rc4, h.sent, h.decrypted⟩
  obtain ⟨hrc4, hsent, hdec⟩ := hrest
  rw [heq, handle, hst]
  dsimp only
  by_cases hya : 96 ≤ s₁.buf.length
  · have hkey : s₁.buf.take 96 = i.ya.1.take 96 := by
      rw [hall, List.take_take, min_eq_left hya, i.stream_take_ya,
        List.take_of_length_le i.ya.2.le]
    have hsecret : dhSecret c.xb (BigInt.fromBuffer s₁.buf 96) = i.secret := by
      rw [BigInt.fromBuffer, hkey]
      rfl
    rw [if_pos hya, handleYA]
    obtain ⟨s₂, hs₂⟩ : ∃ s₂ : EncryptedServerAuthenticate, s₂ = { s₁ with
        sent := s₁.sent ++ [c.yb]
        s := dhSecret c.xb (BigInt.fromBuffer s₁.buf 96)
        state := .waitingForReq1 } := ⟨_, rfl⟩
    have hl₂ : Loaded i (t + chunk.length) s₂ := by
      subst hs₂
      exact { hl₁ with }
    have h₂ : Searching i s₂ := by
      subst hs₂
      exact ⟨hsecret, hall, hrc4, by simp [hsent], hdec⟩
    exact .inr ⟨s₂, hl₂, h₂, by rw [hs₂], by rw [hs₂]⟩
  · rw [if_neg hya]
    exact .inl ⟨hl₁, hst, by omega, hall, hrc4, hsent, hdec⟩

end

/-- **The step lemma.**  A piece of the right kind brings a good run on; any other one
loses it. -/
theorem At.arrive (hfirst : i.FirstAt i.req1At) (h : i.At t s) {chunk : List UInt8}
    (hne : chunk ≠ []) (hnext : i.stream.take (t + chunk.length) = i.stream.take t ++ chunk)
    (hle : t + chunk.length ≤ i.stream.length) :
    (i.CutOk t (t + chunk.length) → i.At (t + chunk.length) (s.arrive c chunk)) ∧
      (¬ i.CutOk t (t + chunk.length) → i.Doomed (t + chunk.length) (s.arrive c chunk)) := by
  have hpos : 0 < chunk.length := List.length_pos_iff.mpr hne
  have hfit := i.iaEnd_le
  have hend : i.iaEnd = i.iaAt + i.ia.length := rfl
  have hat : i.iaAt = i.req1At + 56 + i.padC.length := rfl
  have hreq : i.req1At = 96 + i.padA.length := rfl
  cases h with
  | waiting h =>
    have hlt := h.lt
    rw [cutOk_iff_early (by omega)]
    obtain h | ⟨s₂, hl₂, h₂, hst, heq⟩ := h.arrive hne hnext hle
    · have hlt' := h.lt
      exact ⟨fun _ => .waiting h,
        fun hnot => absurd ⟨by omega, fun hge => absurd hge (by omega)⟩ hnot⟩
    · rw [heq]
      exact findReq1_at hfirst hl₂ h₂ hst
  | searching hl hs ht h =>
    obtain ⟨s₂, hl₂, h₂, hst, heq⟩ := searching_arrive hl (by omega) hs h hne hnext hle
    rw [cutOk_iff_early ht, heq]
    exact findReq1_at hfirst hl₂ h₂ hst
  | found hl hs hge ht h =>
    have ht' : t < maxSeaBufSize := by omega
    obtain ⟨sock, device, s₁, hs₁, hl₁, heq⟩ := arrive_eq hl ht' hne hnext hle (by simp [hs])
    have hst : s₁.state = .foundReq1 := by rw [hs₁]; exact hs
    have hall := buf_arrive hl ht' hl₁ h.buf (by rw [hs₁])
    have h₁ : Found i s₁ := by
      subst hs₁
      exact { h with buf := hall }
    rw [heq, handle, hst, cutOk_iff_hash hge (by omega) (by omega)]
    exact calculateSKey_at hl₁ h₁ hst (by omega)
  | hash hl hs hge ht h =>
    have ht' : t < maxSeaBufSize := by omega
    obtain ⟨sock, device, s₁, hs₁, hl₁, heq⟩ := arrive_eq hl ht' hne hnext hle (by simp [hs])
    have hst : s₁.state = .foundInfoHash := by rw [hs₁]; exact hs
    have hall := buf_arrive hl ht' hl₁ h.buf (by rw [hs₁])
    have hlen₁ := hl₁.length
    have h₁ : HashDone i s₁ := by
      subst hs₁
      exact { h with buf := hall }
    rw [heq, handle, hst, cutOk_iff_hash hge (by omega) (by omega)]
    by_cases hdone : i.req1At + 54 ≤ t + chunk.length
    · obtain ⟨hgood, hbad⟩ := processVC_at hl₁ h₁ hdone hst
      exact ⟨fun hok => hgood (hok hdone), fun hnot => hbad fun hok => hnot fun _ => hok⟩
    · show (_ → i.At _ (s₁.processVC c)) ∧ (_ → i.Doomed _ (s₁.processVC c))
      rw [processVC_short h₁ (by omega)]
      refine ⟨fun _ => .hash { hl₁ with } hst (by omega) (by omega) { h₁ with rc4 := rfl },
        fun hnot => ?_⟩
      exact absurd (fun hge => absurd hge hdone) hnot
  | padC hl hs hge ht h =>
    have ht' : t < maxSeaBufSize := by omega
    obtain ⟨sock, device, s₁, hs₁, hl₁, heq⟩ := arrive_eq hl ht' hne hnext hle (by simp [hs])
    have hst : s₁.state = .waitForPadC := by rw [hs₁]; exact hs
    have hlen := hl.length
    have hlen₁ := hl₁.length
    have hrest := rest_arrive hl ht' hl₁ hge h.rest (by rw [hs₁])
    have h₁ : VCDone i s₁ := by
      subst hs₁
      exact { h with rest := hrest }
    rw [heq, handle, hst, cutOk_iff_padC hge ht (by omega)]
    by_cases hdone : i.iaAt ≤ t + chunk.length
    · obtain ⟨hgood, hbad⟩ := handlePadC_at hl₁ h₁ hdone (.inl hst)
      exact ⟨fun hok => hgood (hok hdone), fun hnot => hbad fun hok => hnot fun _ => hok⟩
    · show (_ → i.At _ (s₁.handlePadC c)) ∧ (_ → i.Doomed _ (s₁.handlePadC c))
      rw [handlePadC_short h₁ (by omega)]
      exact ⟨fun _ => .padC hl₁ hst (by omega) (by omega) h₁,
        fun hnot => absurd (fun hge => absurd hge hdone) hnot⟩
  | ia hl hs hge ht h =>
    have ht' : t < maxSeaBufSize := by omega
    obtain ⟨sock, device, s₁, hs₁, hl₁, heq⟩ := arrive_eq hl ht' hne hnext hle (by simp [hs])
    have hst : s₁.state = .waitForIA := by rw [hs₁]; exact hs
    have hlen := hl.length
    have hlen₁ := hl₁.length
    have hrest := rest_arrive hl ht' hl₁ hge h.rest (by rw [hs₁])
    have h₁ : PadCDone i s₁ := by
      subst hs₁
      exact { h with rest := hrest }
    rw [heq, handle, hst, cutOk_iff_ia hge ht (by omega)]
    by_cases hdone : i.iaEnd ≤ t + chunk.length
    · obtain ⟨hgood, hbad⟩ := handleIA_at hl₁ h₁ hdone
      exact ⟨fun hok => hgood (hok hdone), fun hnot => hbad fun hok => hnot fun _ => hok⟩
    · show (_ → i.At _ (s₁.handleIA c)) ∧ (_ → i.Doomed _ (s₁.handleIA c))
      rw [handleIA_short h₁ (by omega)]
      exact ⟨fun _ => .ia hl₁ hst (by omega) (by omega) h₁,
        fun hnot => absurd (fun hge => absurd hge hdone) hnot⟩
  | handed ht h hsettled =>
    obtain ⟨hover, hsettled'⟩ := h.arrive hsettled ht hne hnext hle
    exact ⟨fun _ => .handed (by omega) hover hsettled',
      fun hnot => absurd (cutOk_late ht (by omega)) hnot⟩

/-! ## Lost runs -/

/-- Positions deciphered out of turn break the law. -/
theorem not_orderly {n a m : ℕ} {l : List ℕ} (hm : 0 < m) (ha : a ≠ i.req1At + 40 + n)
    (h : s.decrypted = List.range' (i.req1At + 40) n ++ (List.range' a m ++ l)) :
    ¬ i.Orderly s := by
  intro horderly
  have hdec := horderly.decrypted
  have hlen : n < s.decrypted.length := by
    rw [h]
    simp
    omega
  have hat : s.decrypted[n]? = some a := by
    rw [h, List.getElem?_append_right (by simp), List.length_range', Nat.sub_self,
      List.getElem?_append_left (by simpa using hm), List.getElem?_range' hm]
    simp
  rw [hdec, List.getElem?_range' hlen] at hat
  simp at hat
  omega

theorem handleIA_decrypted : (s.handleIA c).decrypted = s.decrypted := by
  rw [handleIA]
  by_cases hpos : 0 < s.iaLen
  · simp only [hpos, if_true]
    split
    · rfl
    split
    · rfl
    split <;> rfl
  · simp only [hpos, if_false]
    split
    · rfl
    split
    · rfl
    split <;> rfl

/-- PadC, deciphered once or again. -/
theorem handlePadC_decrypted {e : RC4Encryptor} (he : s.ourRc4 = some e)
    (hlen : s.req1Off + 54 + s.padCLen + 2 ≤ s.buf.length) :
    (s.handlePadC c).decrypted
      = s.decrypted ++ List.range' (s.req1Off + 54) (s.padCLen + 2) := by
  rw [handlePadC, if_neg (by omega)]
  simp only [he]
  split
  · rfl
  split
  · rfl
  · rw [handleIA_decrypted]
    rfl

theorem handlePadC_extends : ∃ l, (s.handlePadC c).decrypted = s.decrypted ++ l := by
  by_cases hlen : s.req1Off + 54 + s.padCLen + 2 ≤ s.buf.length
  · cases he : s.ourRc4 with
    | none =>
      refine ⟨[], ?_⟩
      rw [handlePadC, if_neg (by omega), he, List.append_nil]
    | some e => exact ⟨_, handlePadC_decrypted he hlen⟩
  · refine ⟨[], ?_⟩
    rw [handlePadC, if_pos (by omega), List.append_nil]

theorem readVC_extends (s : EncryptedServerAuthenticate) (e : RC4Encryptor) (off : ℕ) :
    ∃ l, (s.readVC c e off).decrypted = s.decrypted ++ l := by
  have hsame : ∃ l : List ℕ, s.decrypted = s.decrypted ++ l := ⟨[], (List.append_nil _).symm⟩
  rw [readVC]
  split
  · exact hsame
  split
  · dsimp only
    split
    · exact hsame
    split
    · exact hsame
    · exact handlePadC_extends
  · exact hsame

/-- The 14 bytes, deciphered once or again. -/
theorem processVC_decrypted (hlen : s.req1Off + 54 ≤ s.buf.length) :
    ∃ l, (s.processVC c).decrypted
      = s.decrypted ++ (List.range' (s.req1Off + 40) 14 ++ l) := by
  rw [processVC]
  dsimp only
  rw [if_neg (by omega)]
  obtain ⟨l, hl⟩ := readVC_extends (c := c)
    (decryptAt { s with ourRc4 := some (s.ourRc4.getD (c.newRC4 s.s s.infoHash)) }
      (s.ourRc4.getD (c.newRC4 s.s s.infoHash)) (s.req1Off + 40) 14)
    ((s.ourRc4.getD (c.newRC4 s.s s.infoHash)).decrypt (s.buf.drop (s.req1Off + 40)) 14).2
    (s.req1Off + 40)
  refine ⟨l, hl.trans ?_⟩
  rw [← List.append_assoc]
  rfl

section
variable {chunk : List UInt8}

/-- A handler that has deciphered is entered again, and deciphers again. -/
theorem again_arrive (hl : Loaded i t s) (ht : t < i.iaEnd) (h : i.Again s) (hne : chunk ≠ [])
    (hnext : i.stream.take (t + chunk.length) = i.stream.take t ++ chunk)
    (hle : t + chunk.length ≤ i.stream.length) : ¬ i.Orderly (s.arrive c chunk) := by
  have hfit := i.iaEnd_le
  have hstate : s.state ≠ .nonEncryptedHandshake := by
    obtain ⟨hs, -⟩ | ⟨hs, -⟩ := h
    · simp [hs]
    · simp [hs]
  obtain ⟨sock, device, s₁, hs₁, hl₁, heq⟩ :=
    arrive_eq hl (by omega) hne hnext hle hstate
  have hgrown : s.buf.length ≤ s₁.buf.length := by
    rw [hs₁]
    simp
  have hsame : s₁.state = s.state ∧ s₁.req1Off = s.req1Off ∧ s₁.padCLen = s.padCLen ∧
      s₁.ourRc4 = s.ourRc4 ∧ s₁.decrypted = s.decrypted := by
    rw [hs₁]
    exact ⟨rfl, rfl, rfl, rfl, rfl⟩
  obtain ⟨hst, hreq, hpad, hrc4, hdec⟩ := hsame
  rw [heq, handle, hst]
  obtain ⟨hs, hreq₀, hlen, -, n, hn, hdec₀⟩ | ⟨hs, hlen, h⟩ := h
  · rw [hs]
    obtain ⟨l, hl⟩ := processVC_decrypted (c := c) (s := s₁) (by omega)
    rw [hdec, hdec₀, hreq, hreq₀] at hl
    exact not_orderly (by decide) (by omega) hl
  · rw [hs]
    obtain ⟨e, he, -⟩ := h.rc4
    have hat : i.iaAt = i.req1At + 56 + i.padC.length := rfl
    have hdec₁ := handlePadC_decrypted (c := c) (s := s₁) (hrc4.trans he)
      (by rw [hreq, h.req1Off, hpad, h.padCLen]; omega)
    rw [hdec, h.decrypted, hreq, h.req1Off, ← List.append_nil (List.range' (i.req1At + 54) _)]
      at hdec₁
    exact not_orderly (by omega) (by omega) hdec₁

/-- Too little was put back for the first read: it is still too little, or the read needs
the device too and runs the cipher twice. -/
theorem Short.arrive (h : i.Short t s) (hne : chunk ≠ [])
    (hnext : i.stream.take (t + chunk.length) = i.stream.take t ++ chunk)
    (hle : t + chunk.length ≤ i.stream.length) :
    i.Short (t + chunk.length) (s.arrive c chunk) ∨ ¬ i.Orderly (s.arrive c chunk) := by
  obtain ⟨e, b, hdec, hmore, hb, hav, heq⟩ := h.handedOver.read h.begun hne hnext hle
  have hpos : 0 < chunk.length := List.length_pos_iff.mpr hne
  have hlen := length_raw (i := i) hle
  have hbegun := h.begun
  have hshort := h.short
  have hsame : b.sock = s.sock ∧ b.finish = none ∧ b.bytesOfHandshakeReceived = 0 ∧
      b.handed = [] := by
    rw [hb]
    exact ⟨rfl, h.pending, h.received, h.handed⟩
  obtain ⟨hsock, hpending, hreceived, hhanded⟩ := hsame
  have hnil : b.handed.length = 0 := by rw [hhanded]; rfl
  have hunread : b.sock.unread ≠ [] := by
    rw [hsock]
    exact h.unread
  rw [heq, h.pending, if_neg (by simp)]
  by_cases hstill : t + chunk.length < i.iaAt + 48
  · have hidle : b.onReadyRead c.verdicts = b := hmore.onReadyRead_short hav (by omega)
    rw [hidle]
    refine .inl ⟨⟨hle, h.handedOver.state, ?_, h.handedOver.sent, h.handedOver.decrypted, e, hdec,
      hmore⟩, hpending, hreceived, hhanded, hunread, by omega, hstill, h.more⟩
    show b.finish ≠ _
    simp [hpending]
  · -- all that was put back is among the bytes that had come before
    have hput : b.sock.unread.length ≤ t - i.iaAt := by
      obtain ⟨e', -, hold⟩ := h.handedOver.base
      have hrest := congrArg List.length hold.rest
      rw [List.length_append, List.length_drop, length_raw h.handedOver.le] at hrest
      rw [hsock]
      omega
    have henc := hmore.overruns (v := c.verdicts) hpending hreceived hhanded hunread (by omega)
      (by omega) (by omega)
    refine .inr fun horderly => ?_
    have hcipher := horderly.cipher h.handedOver.state
    rw [show ({ s with toAuthenticateBase := b.onReadyRead c.verdicts } :
      EncryptedServerAuthenticate).sock.enc = _ from henc] at hcipher
    have hposEq := congrArg KeyStream.pos (Option.some.inj hcipher)
    have hlt : 0 < b.sock.unread.length := List.length_pos_iff.mpr hunread
    simp only [hdec, KeyStream.advance_pos] at hposEq
    omega

end

/-! ## Runs -/

/-- The next piece of the stream, and the pieces behind it. -/
theorem next_piece {chunk : List UInt8} {chunks : List (List UInt8)}
    (hle : t ≤ i.stream.length)
    (hflat : i.stream = i.stream.take t ++ (chunk :: chunks).flatten) :
    i.stream.take (t + chunk.length) = i.stream.take t ++ chunk ∧
      t + chunk.length ≤ i.stream.length ∧
      i.stream = i.stream.take (t + chunk.length) ++ chunks.flatten := by
  have htake : (i.stream.take t).length = t := by rw [List.length_take, min_eq_left hle]
  rw [List.flatten_cons, ← List.append_assoc] at hflat
  have hnext : i.stream.take (t + chunk.length) = i.stream.take t ++ chunk := by
    have hcut := congrArg (List.take (t + chunk.length)) hflat
    rwa [List.take_left' (by rw [List.length_append, htake])] at hcut
  refine ⟨hnext, ?_, by rw [hnext]; exact hflat⟩
  have hlen := congrArg List.length hflat
  simp only [List.length_append, htake] at hlen
  omega

/-- A doomed run breaks the law. -/
theorem Doomed.run : ∀ (chunks : List (List UInt8)) (t : ℕ) (s : EncryptedServerAuthenticate),
    i.Doomed t s → t ≤ i.stream.length → (∀ chunk ∈ chunks, chunk ≠ []) →
    i.stream = i.stream.take t ++ chunks.flatten →
    ¬ AllStates (EncryptedServerAuthenticate.arrive c) i.Orderly s chunks := by
  intro chunks
  induction chunks with
  | nil =>
    intro t s h hle _ hflat hall
    have hend : t = i.stream.length := by
      have hlen := congrArg List.length hflat
      simp at hlen
      omega
    have hlen := i.length_stream
    have hiaEnd : i.iaEnd = i.iaAt + i.ia.length := rfl
    cases h with
    | broken h => exact h hall
    | again _ ht _ => omega
    | short h =>
      have hshort := h.short
      have hmore := h.more
      omega
  | cons chunk chunks ih =>
    intro t s h hle hne hflat hall
    obtain ⟨hnext, hle', hrest⟩ := next_piece hle hflat
    have hchunk := hne chunk (List.mem_cons_self ..)
    have hchunks : ∀ x ∈ chunks, x ≠ [] := fun x hx => hne x (List.mem_cons_of_mem _ hx)
    cases h with
    | broken h => exact h hall.1
    | again hl ht h => exact again_arrive hl ht h hchunk hnext hle' hall.2.head
    | short h =>
      obtain h | h := h.arrive hchunk hnext hle'
      · exact ih _ _ (.short h) hle' hchunks hrest hall.2
      · exact h hall.2.head

/-- A run from a good state is good as long as the pieces are of the right kind. -/
theorem At.run (hfirst : i.FirstAt i.req1At) :
    ∀ (chunks : List (List UInt8)) (t : ℕ) (s : EncryptedServerAuthenticate),
    i.At t s → t ≤ i.stream.length → (∀ chunk ∈ chunks, chunk ≠ []) →
    i.stream = i.stream.take t ++ chunks.flatten →
    (AllStates (EncryptedServerAuthenticate.arrive c) i.Orderly s chunks ∧
        i.Completed (run (EncryptedServerAuthenticate.arrive c) s chunks) ↔
      AllSteps (fun n (chunk : List UInt8) => n + chunk.length)
        (fun n chunk => i.CutOk n (n + chunk.length)) t chunks) := by
  intro chunks
  induction chunks with
  | nil =>
    intro t s h hle _ hflat
    have hend : t = i.stream.length := by
      have hlen := congrArg List.length hflat
      simp at hlen
      omega
    subst hend
    exact ⟨fun _ => trivial, fun _ => ⟨h.orderly, h.completed⟩⟩
  | cons chunk chunks ih =>
    intro t s h hle hne hflat
    obtain ⟨hnext, hle', hrest⟩ := next_piece hle hflat
    have hchunk := hne chunk (List.mem_cons_self ..)
    have hchunks : ∀ x ∈ chunks, x ≠ [] := fun x hx => hne x (List.mem_cons_of_mem _ hx)
    obtain ⟨hgood, hbad⟩ := h.arrive hfirst hchunk hnext hle'
    by_cases hcut : i.CutOk t (t + chunk.length)
    · have hih := ih _ _ (hgood hcut) hle' hchunks hrest
      constructor
      · rintro ⟨hall, hdone⟩
        exact ⟨hcut, hih.mp ⟨hall.2, hdone⟩⟩
      · rintro ⟨-, hcuts⟩
        obtain ⟨hall, hdone⟩ := hih.mpr hcuts
        exact ⟨⟨h.orderly, hall⟩, hdone⟩
    · constructor
      · rintro ⟨hall, -⟩
        exact absurd hall.2 (Doomed.run chunks _ _ (hbad hcut) hle' hchunks hrest)
      · rintro ⟨hok, -⟩
        exact absurd hok hcut

/-! ## A hash in PadA -/

/-- Nothing is deciphered, and the hash was found, or will be, at byte `q`. -/
inductive Astray (i : Initiator c) (q t : ℕ) (s : EncryptedServerAuthenticate) : Prop
  | waiting (h : i.Waiting t s)
  | searching (hl : Loaded i t s) (hs : s.state = .waitingForReq1) (ht : t ≤ q + 20)
      (h : Searching i s)
  | lost (hl : Loaded i t s) (hreq : s.req1Off = q) (hdec : s.decrypted = [])
      (h : s.state = .foundReq1 ∧ t < q + 40 ∨ s.state = .foundInfoHash ∧ t < q + 54)

section
variable {q : ℕ}

theorem astray_processVC (hq : q < i.req1At) (hl : Loaded i t s) (hreq : s.req1Off = q)
    (hdec : s.decrypted = []) (hs : s.state = .foundInfoHash) :
    i.Astray q t (s.processVC c) ∨ ¬ i.Orderly (s.processVC c) := by
  have hfit := i.iaAt_add_68_le
  have hat : i.iaAt = i.req1At + 56 + i.padC.length := rfl
  have hlen := hl.length
  by_cases hshort : s.buf.length < q + 54
  · have heq : s.processVC c
        = { s with ourRc4 := some (s.ourRc4.getD (c.newRC4 s.s s.infoHash)) } := by
      rw [processVC]
      dsimp only
      rw [if_pos (by rw [hreq]; omega)]
    rw [heq]
    exact .inl (.lost { hl with } hreq hdec (.inr ⟨hs, by omega⟩))
  · obtain ⟨l, hl'⟩ := processVC_decrypted (c := c) (s := s) (by omega)
    rw [hdec, hreq, List.nil_append, ← List.nil_append (List.range' (q + 40) 14 ++ l)] at hl'
    exact .inr (not_orderly (n := 0) (by decide) (by omega) hl')

theorem astray_calculateSKey (hq : q < i.req1At) (hl : Loaded i t s) (hreq : s.req1Off = q)
    (hdec : s.decrypted = []) (hs : s.state = .foundReq1) :
    i.Astray q t (s.calculateSKey c) ∨ ¬ i.Orderly (s.calculateSKey c) := by
  have hfit := i.iaAt_add_68_le
  have hat : i.iaAt = i.req1At + 56 + i.padC.length := rfl
  have hlen := hl.length
  rw [calculateSKey]
  split
  · rename_i hshort
    exact .inl (.lost hl hreq hdec (.inl ⟨hs, by omega⟩))
  · dsimp only
    split
    · exact .inr fun horderly => horderly.notFailed rfl
    · exact astray_processVC hq { hl with } hreq hdec rfl

theorem astray_findReq1 (hfirst : i.FirstAt q) (hq : q < i.req1At) (hl : Loaded i t s)
    (h : Searching i s) (hs : s.state = .waitingForReq1) :
    i.Astray q t (s.findReq1 c) ∨ ¬ i.Orderly (s.findReq1 c) := by
  have hfit := i.iaAt_add_68_le
  have hat : i.iaAt = i.req1At + 56 + i.padC.length := rfl
  have hlen := hl.length
  rw [findReq1_eq hl h hfirst.ge hfirst.hash hfirst.first]
  split
  · exact astray_calculateSKey hq { hl with } rfl h.decrypted rfl
  split
  · exact .inr fun horderly => horderly.notFailed rfl
  · exact .inl (.searching hl hs (by omega) h)

theorem Astray.arrive (hfirst : i.FirstAt q) (hq : q < i.req1At) (h : i.Astray q t s)
    {chunk : List UInt8} (hne : chunk ≠ [])
    (hnext : i.stream.take (t + chunk.length) = i.stream.take t ++ chunk)
    (hle : t + chunk.length ≤ i.stream.length) :
    i.Astray q (t + chunk.length) (s.arrive c chunk) ∨ ¬ i.Orderly (s.arrive c chunk) := by
  have hfit := i.iaAt_add_68_le
  have hat : i.iaAt = i.req1At + 56 + i.padC.length := rfl
  cases h with
  | waiting h =>
    obtain h | ⟨s₂, hl₂, h₂, hst, heq⟩ := h.arrive hne hnext hle
    · exact .inl (.waiting h)
    · rw [heq]
      exact astray_findReq1 hfirst hq hl₂ h₂ hst
  | searching hl hs ht h =>
    obtain ⟨s₂, hl₂, h₂, hst, heq⟩ := searching_arrive hl (by omega) hs h hne hnext hle
    rw [heq]
    exact astray_findReq1 hfirst hq hl₂ h₂ hst
  | lost hl hreq hdec h =>
    have hstate : s.state ≠ .nonEncryptedHandshake := by
      obtain ⟨hs, -⟩ | ⟨hs, -⟩ := h
      · simp [hs]
      · simp [hs]
    obtain ⟨sock, device, s₁, hs₁, hl₁, heq⟩ := arrive_eq hl (by omega) hne hnext hle hstate
    have hst : s₁.state = s.state := by rw [hs₁]
    have hreq₁ : s₁.req1Off = q := by rw [hs₁]; exact hreq
    have hdec₁ : s₁.decrypted = [] := by rw [hs₁]; exact hdec
    rw [heq, handle, hst]
    obtain ⟨hs, -⟩ | ⟨hs, -⟩ := h
    · rw [hs]
      exact astray_calculateSKey hq hl₁ hreq₁ hdec₁ (hst.trans hs)
    · rw [hs]
      exact astray_processVC hq hl₁ hreq₁ hdec₁ (hst.trans hs)

/-- A run that finds the hash too early breaks the law. -/
theorem Astray.run (hfirst : i.FirstAt q) (hq : q < i.req1At) :
    ∀ (chunks : List (List UInt8)) (t : ℕ) (s : EncryptedServerAuthenticate),
    i.Astray q t s → t ≤ i.stream.length → (∀ chunk ∈ chunks, chunk ≠ []) →
    i.stream = i.stream.take t ++ chunks.flatten →
    ¬ AllStates (EncryptedServerAuthenticate.arrive c) i.Orderly s chunks := by
  intro chunks
  induction chunks with
  | nil =>
    intro t s h hle _ hflat hall
    have hend : t = i.stream.length := by
      have hlen := congrArg List.length hflat
      simp at hlen
      omega
    have hlen := i.length_stream
    have hiaEnd : i.iaEnd = i.iaAt + i.ia.length := rfl
    have hat : i.iaAt = i.req1At + 56 + i.padC.length := rfl
    have hreq : i.req1At = 96 + i.padA.length := rfl
    cases h with
    | waiting h =>
      have hlt := h.lt
      omega
    | searching _ _ ht => omega
    | lost _ _ _ h => omega
  | cons chunk chunks ih =>
    intro t s h hle hne hflat hall
    obtain ⟨hnext, hle', hrest⟩ := next_piece hle hflat
    obtain h | h := h.arrive hfirst hq (hne chunk (List.mem_cons_self ..)) hnext hle'
    · exact ih _ _ h hle' (fun x hx => hne x (List.mem_cons_of_mem _ hx)) hrest hall.2
    · exact h hall.2.head

end

/-- What stands in PadA and the first hash. -/
theorem stream_drop_padA {k : ℕ} (hk : k ≤ i.padA.length) :
    (i.stream.drop (96 + k)).take 20 = ((i.padA ++ (c.req1 i.secret).1).drop k).take 20 := by
  have hsplit : i.stream.drop 96 = i.padA ++ (c.req1 i.secret).1 ++
      (Responder.xorHash (c.req2 i.infoHash).1 (c.req3 i.secret).1
        ++ i.ciphers.dec.apply i.plain) := by
    simp only [Initiator.stream, Initiator.front, Initiator.hashes, List.append_assoc]
    rw [List.drop_left' i.ya.2]
  have hlen := (c.req1 i.secret).2
  rw [← List.drop_drop, hsplit, List.drop_append_of_le_length (by simp; omega),
    List.take_append_of_le_length (by simp; omega)]

/-- The first place of the hash is behind PadA exactly when PadA does not contain it. -/
theorem firstAt_iff : i.FirstAt i.req1At ↔ i.HashAtEnd := by
  constructor
  · intro h k hk hhash
    refine h.first (96 + k) (by omega) (by simp only [Initiator.req1At]; omega) ?_
    rw [stream_drop_padA hk.le, hhash]
  · intro h
    refine ⟨by simp only [Initiator.req1At]; omega, i.stream_req1, fun k hk hlt hhash => ?_⟩
    obtain ⟨j, rfl⟩ := Nat.exists_eq_add_of_le hk
    have hj : j < i.padA.length := by
      simp only [Initiator.req1At] at hlt
      omega
    rw [stream_drop_padA hj.le] at hhash
    exact h j hj hhash

/-- There is a first place. -/
theorem exists_firstAt (i : Initiator c) : ∃ q, i.FirstAt q ∧ q ≤ i.req1At := by
  classical
  have hex : ∃ q, 96 ≤ q ∧ (i.stream.drop q).take 20 = (c.req1 i.secret).1 :=
    ⟨i.req1At, by simp only [Initiator.req1At]; omega, i.stream_req1⟩
  refine ⟨Nat.find hex, ⟨(Nat.find_spec hex).1, (Nat.find_spec hex).2, fun k hk hlt hhash => ?_⟩, ?_⟩
  · exact Nat.find_min hex hlt ⟨hk, hhash⟩
  · exact Nat.find_min' hex ⟨by simp only [Initiator.req1At]; omega, i.stream_req1⟩

theorem waiting_new : i.Waiting 0 EncryptedServerAuthenticate.new where
  loaded := ⟨Nat.zero_le _, rfl, sound_new, rfl, rfl, rfl, rfl, rfl, rfl, rfl⟩
  state := rfl
  lt := by decide
  buf := rfl
  rc4 := rfl
  sent := rfl
  decrypted := rfl

/-- **The responder is independent of the segmentation, exactly.**  Whatever an initiator
sends, and in whatever pieces it arrives, the responder does its work if and only if PadA
does not contain the first hash and every cut point is harmless. -/
theorem responder_independent_iff (i : Initiator c) (cut : Cutting i.stream) :
    i.Independent cut ↔ i.HashAtEnd ∧ i.CutsOk cut := by
  have hflat : i.stream = i.stream.take 0 ++ cut.chunks.flatten := by
    rw [List.take_zero, List.nil_append, cut.flatten]
  obtain ⟨q, hfirst, hq⟩ := i.exists_firstAt
  by_cases hend : i.HashAtEnd
  · have hrun := At.run (firstAt_iff.mpr hend) cut.chunks 0 EncryptedServerAuthenticate.new
      (.waiting waiting_new) (Nat.zero_le _) cut.nonempty hflat
    exact hrun.trans ⟨fun h => ⟨hend, h⟩, fun h => h.2⟩
  · have hne : q ≠ i.req1At := by
      rintro rfl
      exact hend (firstAt_iff.mp hfirst)
    refine ⟨fun h => absurd h.1 ?_, fun h => absurd h.1 hend⟩
    exact Astray.run hfirst (by omega) cut.chunks 0 _ (.waiting waiting_new) (Nat.zero_le _)
      cut.nonempty hflat

theorem length_firstBytes (data : List UInt8) :
    ((data ++ List.replicate 20 0).take 20).length = 20 := by
  simp

/-- A responder that knows one torrent. -/
def oneTorrent : Responder where
  sha1 data := ⟨(data ++ List.replicate 20 0).take 20, length_firstBytes data⟩
  rc4 _ n := UInt8.ofNat n
  xb := 1
  infoHashes := [zeroed 20]
  unencryptedConnectionsAllowed := false
  memory := zeroedMemory
  verdicts := ⟨fun _ => true, fun _ => true⟩

theorem length_keyTwo : (List.replicate 95 (0 : UInt8) ++ [2]).length = 96 := rfl

theorem noPadding_le : ([] : List UInt8).length ≤ 512 := by decide

theorem rc4_provided : (2 : UInt32) &&& 2 ≠ 0 := by decide

/-- No padding at all, 68 bytes of initial data. -/
def unpadded : Initiator oneTorrent where
  ya := ⟨List.replicate 95 0 ++ [2], length_keyTwo⟩
  padA := []
  infoHash := zeroed 20
  cryptoProvide := 2
  padC := []
  ia := List.replicate 68 0
  payload := []
  padA_le := noPadding_le
  padC_le := noPadding_le
  ia_pos := by decide
  ia_le := by decide
  rc4 := rc4_provided
  known := by decide +kernel
  required := rfl

/-- The first 150 bytes arrive, up to the end of the 14 that name PadC, and then the rest. -/
def afterVC : Cutting unpadded.stream where
  chunks := [unpadded.stream.take 150, unpadded.stream.drop 150]
  nonempty := by decide +kernel
  flatten := by simp

/-- `processVC` has run the cipher and its state has not changed: it runs it again. -/
theorem afterVC_breaks : ¬ unpadded.Independent afterVC := by
  intro h
  have hdec := h.2.decrypted
  revert hdec
  decide +kernel

end Initiator

end KTorrent
