import KTorrent.Lib.Run
import KTorrent.Mse.AuthenticateBase

/-!
# A handshake that comes in parts

`AuthenticateBase::onReadyRead` is called each time that data has come.  It leaves
fewer than 48 bytes alone, also when they are the rest of a handshake of which it
has read the first part.

* `arrive` — data comes, and `onReadyRead` is called.
* `ValidHandshake` — the 68 bytes that the subclass accepts, knowing 48 of them or all.
* `Received` — the handshake was handed over, and nothing behind it was read.
* `reached` — how much has come when at least so much has.
* `received_iff` — the handshake is received as soon as it has come exactly when no part
  of it was read, or 48 more bytes have come by then.
-/

namespace KTorrent

open EncryptedPacketSocket Runs

namespace AuthenticateBase

/-- A socket with this cipher, if any, from which nothing was read. -/
def start (e : Option RC4Encryptor) : AuthenticateBase :=
  { new with sock := EncryptedPacketSocket.new.setRC4Encryptor e }

/-- Data comes, and `onReadyRead` is called. -/
def arrive (v : Verdicts) (b : AuthenticateBase) (c : List UInt8) : AuthenticateBase :=
  onReadyRead v { b with device := b.device ++ c }

/-- A handshake that is accepted.  A part of it has the info hash, which ends at byte 48. -/
structure ValidHandshake (v : Verdicts) (hs : List UInt8) : Prop where
  length : hs.length = 68
  first : hs.head? = some 19
  name : (hs.drop 1).take 19 = protocolName
  goOn : ∀ buf, buf.take 48 = hs.take 48 → v.goOn buf = true
  accept : v.accept hs = true

/-- `handshakeReceived(true)` was called with the handshake, which is all that was read; the
data behind it is still there. -/
structure Received (hs : List UInt8) (raw : List UInt8) (b : AuthenticateBase) : Prop where
  finish : b.finish = some (.plain true)
  handshake : b.handshake = hs
  handed : b.handed = hs
  rest : b.sock.unread ++ b.device = raw.drop 68

/-- How many bytes have come when `n` of them have, after `total`. -/
def reached (n : ℕ) : List (List UInt8) → ℕ → ℕ
  | [], total => total
  | c :: cs, total => if n ≤ total then total else reached n cs (total + c.length)

variable {e : Option RC4Encryptor} {v : Verdicts} {hs raw c : List UInt8} {b : AuthenticateBase}
  {cs : List (List UInt8)} {n t total : ℕ}

/-! ## What the data says so far -/

/-- Nothing was put back, and the authentication goes on. -/
structure Open (e : Option RC4Encryptor) (raw : List UInt8) (b : AuthenticateBase) : Prop where
  handing : Handing e raw b
  goesOn : b.finish = none
  unread : b.sock.unread = []

/-- Nothing was read. -/
structure Untouched (e : Option RC4Encryptor) (raw : List UInt8) (b : AuthenticateBase) : Prop
    extends Open e raw b where
  received : b.bytesOfHandshakeReceived = 0
  handed : b.handed = []
  short : raw.length < 48

/-- The first `t` bytes were read, as a part of the handshake. -/
structure Parted (e : Option RC4Encryptor) (t : ℕ) (raw : List UInt8) (b : AuthenticateBase) : Prop
    extends Open e raw b where
  atLeast : 48 ≤ t
  below : t < 68
  received : b.bytesOfHandshakeReceived = t
  handed : b.handed.length = t
  front : b.handshake.take t = b.handed
  waits : raw.length < t + 48

theorem untouched_start (e : Option RC4Encryptor) : Untouched e [] (start e) where
  handing :=
    { sound := ⟨rfl, rfl⟩
      handshake := List.length_replicate
      enc := (advance_zero e).symm
      le := Nat.zero_le _
      handed := by cases e <;> rfl
      rest := rfl
      received := .inl rfl }
  goesOn := rfl
  unread := rfl
  received := rfl
  handed := rfl
  short := by decide

theorem Open.arrive (h : Open e raw b) (c : List UInt8) :
    Open e (raw ++ c) { b with device := b.device ++ c } := ⟨h.handing.arrive c, h.goesOn, h.unread⟩

/-- The stream that comes begins with the handshake. -/
def Brings (e : Option RC4Encryptor) (hs whole : List UInt8) : Prop := (decipher e whole).take 68 = hs

/-- What was handed over is the front of the handshake. -/
theorem Brings.handed {whole : List UInt8} (h : Brings e hs whole) (hraw : raw <+: whole)
    (hb : Handing e raw b) (hle : b.handed.length ≤ 68) : b.handed = hs.take b.handed.length := by
  have htake : raw.take b.handed.length <+: whole := (List.take_prefix _ _).trans hraw
  have hpre := decipher_prefix e htake
  rw [← hb.handed] at hpre
  rw [← h, List.take_take, min_eq_left hle]
  exact List.prefix_iff_eq_take.mp hpre

/-- What a read stores into the handshake is what it hands over. -/
theorem readHandshake_handshake (b : AuthenticateBase) (off len : ℕ) :
    (b.readHandshake off len).handshake =
      Buffer.overwrite b.handshake off ((b.readHandshake off len).handed.drop b.handed.length) := by
  simp [readHandshake]

theorem readHandshake_other (b : AuthenticateBase) (off len : ℕ) :
    (b.readHandshake off len).finish = b.finish ∧
      (b.readHandshake off len).bytesOfHandshakeReceived = b.bytesOfHandshakeReceived := ⟨rfl, rfl⟩

/-- The socket has nothing put back after a read. -/
theorem Open.readHandshake (h : Open e raw b) (off len : ℕ) (hoff : off + len ≤ 68)
    (hlen : len ≤ raw.length - b.handed.length) :
    Open e raw (b.readHandshake off len) ∧
      (b.readHandshake off len).handed.length = b.handed.length + len := by
  obtain ⟨hread, hcount⟩ := h.handing.readHandshake hoff (.inl h.unread) hlen
  have hbuf : ((b.handshake.drop off).take len).length = len := by
    have := h.handing.handshake
    simp; omega
  exact ⟨⟨hread, h.goesOn, readData_unread h.handing.sound hbuf h.unread⟩, hcount⟩

/-- A handshake that is complete is accepted. -/
theorem Open.received (hv : ValidHandshake v hs) (h : Open e raw b) (hlen : b.handed.length = 68)
    (hhanded : b.handed = hs) (hhs : b.handshake = hs) : Received hs raw (b.checkHandshake v) := by
  have hrest := h.handing.rest
  rw [hlen] at hrest
  rw [checkHandshake, hhs, if_neg (not_not.mpr hv.first), if_neg (not_not.mpr hv.name), hv.accept]
  exact ⟨rfl, hhs, hhanded, hrest⟩

/-! ## One arrival -/

/-- The decision of `onReadyRead` while the authentication goes on. -/
theorem Open.onReadyRead_eq (h : Open e raw b) (hav : 0 < raw.length - b.handed.length) :
    b.onReadyRead v =
      if raw.length - b.handed.length < 48 then b
      else if b.bytesOfHandshakeReceived = 0 then
        if raw.length - b.handed.length < 68 then
          let b' := b.readHandshake 0 (raw.length - b.handed.length)
          let b' := { b' with bytesOfHandshakeReceived := raw.length - b.handed.length }
          if v.goOn b'.handshake then b' else b'.onFinish false
        else (b.readHandshake 0 68).checkHandshake v
      else
        (b.readHandshake b.bytesOfHandshakeReceived
          (68 - b.bytesOfHandshakeReceived)).checkHandshake v := by
  rw [AuthenticateBase.onReadyRead]
  simp only [h.handing.available]
  rw [if_neg (by omega)]
  simp only [h.goesOn, Option.isSome_none, Bool.false_eq_true, false_or]
  by_cases hzero : b.bytesOfHandshakeReceived = 0
  · simp only [(readHandshake_other b _ _).2, hzero, Nat.zero_add]
  · simp only [if_neg hzero]

/-- **Nothing was read so far.** -/
theorem Open.onReadyRead_first {whole : List UInt8} (hv : ValidHandshake v hs)
    (hw : Brings e hs whole) (h : Open e raw b) (hraw : raw <+: whole)
    (hrec : b.bytesOfHandshakeReceived = 0) (hnil : b.handed = []) (hpos : 0 < raw.length) :
    (raw.length < 48 → Untouched e raw (b.onReadyRead v)) ∧
    (48 ≤ raw.length → raw.length < 68 → Parted e raw.length raw (b.onReadyRead v)) ∧
    (68 ≤ raw.length → Received hs raw (b.onReadyRead v)) := by
  have hzero : b.handed.length = 0 := by rw [hnil]; rfl
  have hsize := h.handing.handshake
  rw [h.onReadyRead_eq (by omega), hzero, Nat.sub_zero]
  refine ⟨fun hshort => ?_, fun hlong hpart => ?_, fun hfull => ?_⟩
  · rw [if_pos hshort]
    exact ⟨h, hrec, hnil, hshort⟩
  · rw [if_neg (by omega), if_pos hrec, if_pos hpart]
    obtain ⟨hread, hlen⟩ := h.readHandshake 0 raw.length (by omega) (by omega)
    have hbuf := readHandshake_handshake b 0 raw.length
    obtain ⟨b', hb'⟩ : ∃ b', b' = b.readHandshake 0 raw.length := ⟨_, rfl⟩
    rw [← hb'] at hread hlen hbuf ⊢
    rw [hzero, List.drop_zero, Buffer.overwrite_zero] at hbuf
    rw [hzero, Nat.zero_add] at hlen
    have hfront : b'.handshake.take raw.length = b'.handed := by
      rw [hbuf, ← hlen, List.take_left]
    have hhs := hw.handed hraw hread.handing (by omega)
    have hgoOn : v.goOn b'.handshake = true := by
      refine hv.goOn _ ?_
      rw [hbuf, List.take_append_of_le_length (by omega), hhs, List.take_take, hlen,
        min_eq_left hlong]
    dsimp only
    rw [if_pos hgoOn]
    exact {
      handing := { hread.handing with received := .inr ⟨hlong, hpart⟩ }
      goesOn := hread.goesOn
      unread := hread.unread
      atLeast := hlong
      below := hpart
      received := rfl
      handed := hlen
      front := hfront
      waits := by omega }
  · rw [if_neg (by omega), if_pos hrec, if_neg (by omega)]
    obtain ⟨hread, hlen⟩ := h.readHandshake 0 68 (by omega) (by omega)
    have hbuf := readHandshake_handshake b 0 68
    rw [hzero, Nat.zero_add] at hlen
    have hhs := hw.handed hraw hread.handing hlen.le
    rw [hlen, List.take_of_length_le hv.length.le] at hhs
    refine hread.received hv hlen hhs ?_
    rw [hbuf, hzero, List.drop_zero, Buffer.overwrite_zero, hlen, List.drop_of_length_le hsize.le,
      List.append_nil, hhs]

/-- **A part was read.**  The rest is read when at least 48 more bytes are there. -/
theorem Open.onReadyRead_second {whole : List UInt8} (hv : ValidHandshake v hs)
    (hw : Brings e hs whole) (h : Open e raw b) (hraw : raw <+: whole) (ht : 48 ≤ t) (ht' : t < 68)
    (hrec : b.bytesOfHandshakeReceived = t) (hlen : b.handed.length = t)
    (hfront : b.handshake.take t = b.handed) (hpos : t < raw.length) :
    (raw.length < t + 48 → Parted e t raw (b.onReadyRead v)) ∧
    (t + 48 ≤ raw.length → Received hs raw (b.onReadyRead v)) := by
  have hsize := h.handing.handshake
  rw [h.onReadyRead_eq (by omega), hlen]
  refine ⟨fun hshort => ?_, fun hfull => ?_⟩
  · rw [if_pos (by omega)]
    exact ⟨h, ht, ht', hrec, hlen, hfront, hshort⟩
  · rw [if_neg (by omega), if_neg (by omega), hrec]
    obtain ⟨hread, hlen'⟩ := h.readHandshake t (68 - t) (by omega) (by omega)
    have hbuf := readHandshake_handshake b t (68 - t)
    have hall : (b.readHandshake t (68 - t)).handed.length = 68 := by omega
    have hhs := hw.handed hraw hread.handing hall.le
    rw [hall, List.take_of_length_le hv.length.le] at hhs
    have hbefore := hw.handed hraw h.handing (by omega)
    refine hread.received hv hall hhs ?_
    rw [hbuf, Buffer.overwrite, hfront, hlen, hhs, hbefore, hlen, List.take_append_drop,
      List.drop_of_length_le (by rw [List.length_drop, hv.length, hsize]; omega), List.append_nil]

theorem Untouched.arrive {whole : List UInt8} (hv : ValidHandshake v hs) (hw : Brings e hs whole)
    (h : Untouched e raw b) (hc : c ≠ []) (hraw : raw ++ c <+: whole) :
    ((raw ++ c).length < 48 → Untouched e (raw ++ c) (arrive v b c)) ∧
    (48 ≤ (raw ++ c).length → (raw ++ c).length < 68 →
      Parted e (raw ++ c).length (raw ++ c) (arrive v b c)) ∧
    (68 ≤ (raw ++ c).length → Received hs (raw ++ c) (arrive v b c)) := by
  have hpos := List.length_pos_of_ne_nil hc
  exact (h.toOpen.arrive c).onReadyRead_first hv hw hraw h.received h.handed
    (by rw [List.length_append]; omega)

theorem Parted.arrive {whole : List UInt8} (hv : ValidHandshake v hs) (hw : Brings e hs whole)
    (h : Parted e t raw b) (hc : c ≠ []) (hraw : raw ++ c <+: whole) :
    ((raw ++ c).length < t + 48 → Parted e t (raw ++ c) (arrive v b c)) ∧
    (t + 48 ≤ (raw ++ c).length → Received hs (raw ++ c) (arrive v b c)) := by
  have hpos := List.length_pos_of_ne_nil hc
  have hle := h.handing.le
  rw [h.handed] at hle
  exact (h.toOpen.arrive c).onReadyRead_second hv hw hraw h.atLeast h.below h.received h.handed
    h.front (by rw [List.length_append]; omega)

/-- What comes later is left alone. -/
theorem Received.arrive (h : Received hs raw b) (hlong : 68 ≤ raw.length) (hc : c ≠ []) :
    Received hs (raw ++ c) (arrive v b c) := by
  have hpos := List.length_pos_of_ne_nil hc
  have hav : b.sock.bytesAvailable (b.device ++ c) ≠ 0 := by
    rw [bytesAvailable, List.length_append]
    split <;> omega
  have hsame : AuthenticateBase.arrive v b c = { b with device := b.device ++ c } := by
    rw [AuthenticateBase.arrive, AuthenticateBase.onReadyRead]
    dsimp only
    rw [if_neg hav, if_pos (.inl (by rw [h.finish]; rfl))]
  rw [hsame]
  refine ⟨h.finish, h.handshake, h.handed, ?_⟩
  rw [List.drop_append_of_le_length hlong, ← h.rest, List.append_assoc]

/-! ## All arrivals -/

/-- Whenever the whole handshake has come, it is received. -/
def WhenComplete (v : Verdicts) (hs raw : List UInt8) (b : AuthenticateBase) (cs : List (List UInt8)) :
    Prop :=
  ∀ k, 68 ≤ (raw ++ (cs.take k).flatten).length →
    Received hs (raw ++ (cs.take k).flatten) (run (arrive v) b (cs.take k))

theorem Received.whenComplete (h : Received hs raw b) (hlong : 68 ≤ raw.length)
    (hcs : ∀ c ∈ cs, c ≠ []) : WhenComplete v hs raw b cs := by
  induction cs generalizing raw b with
  | nil =>
    intro k _
    simpa using h
  | cons c cs ih =>
    obtain ⟨hc, hcs⟩ := List.forall_mem_cons.mp hcs
    intro k hk
    cases k with
    | zero => simpa using h
    | succ k =>
      rw [List.take_succ_cons, List.flatten_cons, ← List.append_assoc] at hk ⊢
      exact ih (h.arrive hlong hc) (by rw [List.length_append]; omega) hcs k hk

/-- Before the whole handshake has come, the next arrival decides. -/
theorem whenComplete_cons (hshort : raw.length < 68) :
    WhenComplete v hs raw b (c :: cs) ↔ WhenComplete v hs (raw ++ c) (arrive v b c) cs := by
  constructor
  · intro h k hk
    have hnext := h (k + 1)
    rw [List.take_succ_cons, List.flatten_cons, ← List.append_assoc] at hnext
    exact hnext hk
  · intro h k hk
    cases k with
    | zero =>
      rw [List.take_zero, List.flatten_nil, List.append_nil] at hk
      omega
    | succ k =>
      rw [List.take_succ_cons, List.flatten_cons, ← List.append_assoc] at hk ⊢
      exact h k hk

theorem reached_cons (h : total < n) :
    reached n (c :: cs) total = reached n cs (total + c.length) := by
  rw [reached, if_neg (by omega)]

theorem reached_of_le (h : n ≤ total) : reached n cs total = total := by
  cases cs with
  | nil => rfl
  | cons c cs => rw [reached, if_pos h]

/-- A handshake is not received while it waits. -/
theorem Parted.not_whenComplete (h : Parted e t raw b) (hlong : 68 ≤ raw.length) :
    ¬ WhenComplete v hs raw b cs := by
  intro hall
  have hfinish := (hall 0 (by simpa using hlong)).finish
  rw [List.take_zero, run_nil, h.goesOn] at hfinish
  cases hfinish

variable {whole : List UInt8}

/-- **The run lemma after a part was read.** -/
theorem Parted.whenComplete_iff (hv : ValidHandshake v hs) (hw : Brings e hs whole)
    (hlong : 68 ≤ whole.length) (h : Parted e t raw b) (hshort : raw.length < 68)
    (hcs : ∀ c ∈ cs, c ≠ []) (hwhole : raw ++ cs.flatten = whole) :
    WhenComplete v hs raw b cs ↔ t + 48 ≤ reached 68 cs raw.length := by
  induction cs generalizing raw b with
  | nil =>
    rw [List.flatten_nil, List.append_nil] at hwhole
    rw [hwhole] at hshort
    omega
  | cons c cs ih =>
    obtain ⟨hc, hcs⟩ := List.forall_mem_cons.mp hcs
    rw [List.flatten_cons, ← List.append_assoc] at hwhole
    obtain ⟨hwaits, hdone⟩ := h.arrive hv hw hc (hwhole ▸ List.prefix_append _ _)
    rw [whenComplete_cons hshort, reached_cons hshort, ← List.length_append]
    by_cases hfull : 68 ≤ (raw ++ c).length
    · rw [reached_of_le hfull]
      by_cases henough : t + 48 ≤ (raw ++ c).length
      · exact iff_of_true ((hdone henough).whenComplete hfull hcs) henough
      · exact iff_of_false ((hwaits (by omega)).not_whenComplete hfull) henough
    · have hle := h.atLeast
      exact ih (hwaits (by omega)) (by omega) hcs hwhole

/-- **The run lemma before anything was read.** -/
theorem Untouched.whenComplete_iff (hv : ValidHandshake v hs) (hw : Brings e hs whole)
    (hlong : 68 ≤ whole.length) (h : Untouched e raw b) (hcs : ∀ c ∈ cs, c ≠ [])
    (hwhole : raw ++ cs.flatten = whole) :
    WhenComplete v hs raw b cs ↔
      68 ≤ reached 48 cs raw.length ∨ reached 48 cs raw.length + 48 ≤ reached 68 cs raw.length := by
  induction cs generalizing raw b with
  | nil =>
    have hshort := h.short
    rw [List.flatten_nil, List.append_nil] at hwhole
    rw [hwhole] at hshort
    omega
  | cons c cs ih =>
    have hshort := h.short
    obtain ⟨hc, hcs⟩ := List.forall_mem_cons.mp hcs
    rw [List.flatten_cons, ← List.append_assoc] at hwhole
    obtain ⟨hagain, hpart, hdone⟩ := h.arrive hv hw hc (hwhole ▸ List.prefix_append _ _)
    rw [whenComplete_cons (by omega), reached_cons hshort, reached_cons (by omega),
      ← List.length_append]
    by_cases hfew : (raw ++ c).length < 48
    · exact ih (hagain hfew) hcs hwhole
    · rw [reached_of_le (not_lt.mp hfew)]
      by_cases hfull : 68 ≤ (raw ++ c).length
      · exact iff_of_true ((hdone hfull).whenComplete hfull hcs) (.inl hfull)
      · rw [(hpart (by omega) (by omega)).whenComplete_iff hv hw hlong (by omega) hcs hwhole,
          or_iff_right hfull]

/-- **The handshake in parts.**  For every valid handshake followed by anything, on every
connection, and every way in which the stream comes in non-empty parts: the handshake is
received as soon as all of it has come, exactly when no part of it was read before, or 48
more bytes have come by then. -/
theorem received_iff (v : Verdicts) (e : Option RC4Encryptor) (hs rest : List UInt8)
    (cuts : List (List UInt8)) (hv : ValidHandshake v hs) (hcuts : ∀ c ∈ cuts, c ≠ [])
    (hstream : decipher e cuts.flatten = hs ++ rest) :
    (∀ k, 68 ≤ (cuts.take k).flatten.length →
      Received hs (cuts.take k).flatten (run (arrive v) (start e) (cuts.take k))) ↔
      68 ≤ reached 48 cuts 0 ∨ reached 48 cuts 0 + 48 ≤ reached 68 cuts 0 := by
  have hw : Brings e hs cuts.flatten := by
    rw [Brings, hstream, ← hv.length, List.take_left]
  have hlong : 68 ≤ cuts.flatten.length := by
    have hlen := congrArg List.length hstream
    rw [length_decipher, List.length_append, hv.length] at hlen
    omega
  exact (untouched_start e).whenComplete_iff hv hw hlong hcuts (List.nil_append _)

/-- A handshake. -/
def plainHandshake : List UInt8 := 19 :: protocolName ++ List.replicate 48 0

/-- The subclass accepts everything. -/
def acceptsAll : Verdicts := ⟨fun _ => true, fun _ => true⟩

theorem plainHandshake_valid : ValidHandshake acceptsAll plainHandshake :=
  ⟨by decide, by decide, by decide, fun _ _ => rfl, rfl⟩

/-- It comes in three parts: too little to be looked at; the info hash, up to byte 50; and 48 bytes
more, of which 30 are not of the handshake. -/
def threeParts : List (List UInt8) :=
  [plainHandshake.take 30, (plainHandshake.drop 30).take 20,
    plainHandshake.drop 50 ++ List.replicate 30 7]

/-- It is received with the third. -/
theorem received_threeParts :
    Received plainHandshake threeParts.flatten (run (arrive acceptsAll) (start none) threeParts) := by
  have hall := (received_iff acceptsAll none plainHandshake (List.replicate 30 7) threeParts
    plainHandshake_valid (by decide) (by decide)).mpr (.inr (by decide))
  exact hall 3 (by decide)

/-- **A handshake that is cut behind 50 bytes** is never read to its end. -/
theorem cutHandshake_waits :
    (run (arrive acceptsAll) (start none) [plainHandshake.take 50, plainHandshake.drop 50]).finish =
        none ∧
      ¬ Received plainHandshake plainHandshake
        (run (arrive acceptsAll) (start none) [plainHandshake.take 50, plainHandshake.drop 50]) := by
  have hfinish : (run (arrive acceptsAll) (start none)
      [plainHandshake.take 50, plainHandshake.drop 50]).finish = none := by
    decide +kernel
  refine ⟨hfinish, fun h => ?_⟩
  have hdone := h.finish
  rw [hfinish] at hdone
  cases hdone

end AuthenticateBase
end KTorrent
