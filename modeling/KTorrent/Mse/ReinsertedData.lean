import KTorrent.Lib.Run
import KTorrent.Mse.EncryptedPacketSocket

/-!
# Reinserted data is read like stream data

Runs of an `EncryptedPacketSocket`: data is put back, the device delivers, reads of any
length, and a cipher is set or taken away.

* `SocketSession` — the socket, its device, all that was returned, and the account:
  the stream of all bytes in the order they are due, and the key bytes due to them.
* `Intact` — what was returned is the front of the stream, each byte deciphered once;
  the rest is still there, and `bytesAvailable` counts it.
* `OneSource` — no read needs both the data put back and the device, and none asks a
  device that has nothing.
* `allStates_readInOrder_iff` — the law holds along a run exactly when all reads are of that
  kind.
-/

namespace KTorrent

open Runs EncryptedPacketSocket

/-- A buffer for `readData`, whose length is a `Uint32`. -/
abbrev ReadBuffer := { buf : List UInt8 // buf.length < 2 ^ 32 }

/-- What happens to the socket. -/
inductive SocketEvent where
  /-- `reinsert(d, d.size)`. -/
  | reinsert (d : List UInt8)
  /-- The device has more to deliver. -/
  | arrive (d : List UInt8)
  /-- `readData(buf, buf.size)`; the device answers with so many bytes, or with −1. -/
  | readData (buf : ReadBuffer) (answer : Option ℕ)
  /-- `setRC4Encryptor(e)`. -/
  | setRC4Encryptor (e : Option RC4Encryptor)

/-- A socket, its device and the account of what is due. -/
structure SocketSession where
  sock : EncryptedPacketSocket
  device : List UInt8
  /-- The first `ret` bytes of every buffer, one after the other. -/
  returned : List UInt8
  /-- The bytes put back and delivered, in the order they are due. -/
  stream : List UInt8
  /-- The key bytes due to the bytes taken so far; zero where no cipher was in use. -/
  keys : List UInt8
  /-- The cipher due to the next byte. -/
  cipher : Option RC4Encryptor

namespace SocketSession

/-- A new socket. -/
def start : SocketSession := ⟨EncryptedPacketSocket.new, [], [], [], [], none⟩

/-- The next `n` key bytes. -/
def keyBytes (cipher : Option RC4Encryptor) (n : ℕ) : List UInt8 :=
  decipher cipher (List.replicate n 0)

/-- One event.  Data put back is due before what the device holds. -/
def step (s : SocketSession) : SocketEvent → SocketSession
  | .reinsert d =>
    { s with
      sock := s.sock.reinsert d
      stream := s.stream.take (s.stream.length - s.device.length) ++ d ++ s.device }
  | .arrive d => { s with device := s.device ++ d, stream := s.stream ++ d }
  | .readData buf answer =>
    let r := s.sock.readData s.device buf.1 buf.1.length answer
    let n := s.sock.unread.length + s.device.length - (r.sock.unread.length + r.device.length)
    { s with
      sock := r.sock
      device := r.device
      returned := s.returned ++ r.buf.take r.ret
      keys := s.keys ++ keyBytes s.cipher n
      cipher := advance s.cipher n }
  | .setRC4Encryptor e => { s with sock := s.sock.setRC4Encryptor e, cipher := e }

/-- **The law**: nothing is lost or returned twice, each byte is deciphered once, and
`bytesAvailable` is what is left. -/
structure Intact (s : SocketSession) : Prop where
  counted : s.returned.length = s.keys.length
  deciphered : s.returned = List.zipWith (· ^^^ ·) (s.stream.take s.returned.length) s.keys
  left : s.stream.drop s.returned.length = s.sock.unread ++ s.device
  available : s.sock.bytesAvailable s.device = s.sock.unread.length + s.device.length

/-- The read is served by the data put back alone, or by the device alone, and a device
that is asked has something. -/
def OneSource (s : SocketSession) : SocketEvent → Prop
  | .readData buf answer =>
    buf.1.length ≤ s.sock.unread.length ∨ (s.sock.unread = [] ∧ answer ≠ none)
  | _ => True

instance (s : SocketSession) (e : SocketEvent) : Decidable (OneSource s e) := by
  cases e <;> unfold OneSource <;> infer_instance

/-! ## Steps -/

theorem length_keyBytes (cipher : Option RC4Encryptor) (n : ℕ) :
    (keyBytes cipher n).length = n := by
  simp [keyBytes]

/-- Deciphering adds the key bytes. -/
theorem decipher_eq_zipWith (cipher : Option RC4Encryptor) (bs : List UInt8) :
    decipher cipher bs = List.zipWith (· ^^^ ·) bs (keyBytes cipher bs.length) := by
  cases cipher with
  | some e => exact e.dec.apply_eq_zipWith bs
  | none =>
    induction bs with
    | nil => rfl
    | cons b bs ih => simpa [keyBytes, decipher, List.replicate_succ] using ih

/-- What a run keeps: the law, a socket whose counters fit, and its cipher the one due. -/
structure Reading (s : SocketSession) : Prop where
  sound : s.sock.Sound
  cipher : s.sock.enc = s.cipher
  counted : s.returned.length = s.keys.length
  le : s.returned.length ≤ s.stream.length
  deciphered : s.returned = List.zipWith (· ^^^ ·) (s.stream.take s.returned.length) s.keys
  left : s.stream.drop s.returned.length = s.sock.unread ++ s.device

variable {s : SocketSession}

theorem reading_start : Reading start := ⟨sound_new, rfl, rfl, le_rfl, rfl, rfl⟩

theorem Reading.intact (h : Reading s) : Intact s :=
  ⟨h.counted, h.deciphered, h.left, bytesAvailable_eq h.sound⟩

/-- The bytes taken so far, the data put back and the device make up the stream. -/
theorem Reading.stream_eq (h : Reading s) :
    s.stream = s.stream.take s.returned.length ++ (s.sock.unread ++ s.device) := by
  rw [← h.left, List.take_append_drop]

/-- A read that returned the next `n` bytes keeps the account. -/
theorem Reading.served (h : Reading s) {r : Read} {n : ℕ} (hr : Serves s.sock s.device r n) :
    Reading { s with
      sock := r.sock
      device := r.device
      returned := s.returned ++ r.buf.take r.ret
      keys := s.keys ++ keyBytes s.cipher n
      cipher := advance s.cipher n } := by
  have hgot : r.buf.take r.ret = decipher s.cipher ((s.sock.unread ++ s.device).take n) := by
    rw [hr.ret, hr.bytes, h.cipher]
  have htaken : ((s.sock.unread ++ s.device).take n).length = n := by
    rw [List.length_take, min_eq_left hr.le]
  have hlen : (s.returned ++ r.buf.take r.ret).length = s.returned.length + n := by
    rw [List.length_append, hgot, length_decipher, htaken]
  have hpassed : (s.stream.take s.returned.length).length = s.returned.length := by
    rw [List.length_take, min_eq_left h.le]
  have htake : s.stream.take (s.returned.length + n)
      = s.stream.take s.returned.length ++ (s.sock.unread ++ s.device).take n := by
    rw [List.take_add, h.left]
  exact {
    sound := hr.sound
    cipher := by rw [hr.enc, h.cipher]
    counted := by rw [hlen, List.length_append, length_keyBytes, h.counted]
    le := by
      have hall := congrArg List.length h.stream_eq
      have hle := hr.le
      rw [List.length_append, hpassed] at hall
      rw [hlen]
      show _ ≤ s.stream.length
      omega
    deciphered := by
      rw [hlen]
      show _ = List.zipWith _ (s.stream.take (s.returned.length + n)) _
      rw [htake, List.zipWith_append (by rw [hpassed, h.counted]), ← h.deciphered, hgot,
        decipher_eq_zipWith, htaken]
    left := by
      rw [hlen]
      show s.stream.drop (s.returned.length + n) = _
      rw [← List.drop_drop, h.left, hr.rest] }

/-- Every read of one source returns the next bytes. -/
theorem serves_of_oneSource (h : Reading s) {buf : ReadBuffer} {answer : Option ℕ}
    (hone : OneSource s (.readData buf answer)) :
    ∃ n, Serves s.sock s.device (s.sock.readData s.device buf.1 buf.1.length answer) n := by
  obtain hle | ⟨hnil, hanswer⟩ := hone
  · exact ⟨_, readData_reinserted h.sound hle rfl⟩
  · obtain ⟨k, rfl⟩ := Option.ne_none_iff_exists'.mp hanswer
    exact ⟨_, readData_device h.sound hnil rfl buf.2 k⟩

/-- **The step lemma.** -/
theorem Reading.step (h : Reading s) {e : SocketEvent} (hone : OneSource s e) :
    Reading (s.step e) := by
  cases e with
  | reinsert d =>
    obtain ⟨hsound, hunread, henc⟩ := reinsert_spec h.sound d
    have hall := h.stream_eq
    have hlen : s.stream.length - s.device.length = s.returned.length + s.sock.unread.length := by
      have hl := congrArg List.length hall
      simp only [List.length_append, List.length_take] at hl
      have := h.le
      omega
    have hfront : s.stream.take (s.stream.length - s.device.length)
        = s.stream.take s.returned.length ++ s.sock.unread := by
      rw [hlen, List.take_add, h.left, List.take_left]
    have hpassed : (s.stream.take s.returned.length).length = s.returned.length := by
      rw [List.length_take, min_eq_left h.le]
    have hnew : (s.step (.reinsert d)).stream
        = s.stream.take s.returned.length ++ (s.sock.unread ++ d ++ s.device) := by
      show s.stream.take (s.stream.length - s.device.length) ++ d ++ s.device = _
      rw [hfront]
      simp only [List.append_assoc]
    exact {
      sound := hsound
      cipher := henc.trans h.cipher
      counted := h.counted
      le := by rw [hnew, List.length_append, hpassed]; exact Nat.le_add_right _ _
      deciphered := by
        rw [hnew]
        show s.returned = List.zipWith _ (List.take s.returned.length _) s.keys
        rw [List.take_left' hpassed]
        exact h.deciphered
      left := by
        rw [hnew]
        show List.drop s.returned.length _ = (s.sock.reinsert d).unread ++ s.device
        rw [List.drop_left' hpassed, hunread] }
  | arrive d =>
    have hle := h.le
    exact {
      sound := h.sound
      cipher := h.cipher
      counted := h.counted
      le := by show s.returned.length ≤ (s.stream ++ d).length; simp; omega
      deciphered := by
        show s.returned = List.zipWith _ ((s.stream ++ d).take s.returned.length) s.keys
        rw [List.take_append_of_le_length hle]
        exact h.deciphered
      left := by
        show (s.stream ++ d).drop s.returned.length = s.sock.unread ++ (s.device ++ d)
        rw [List.drop_append_of_le_length hle, h.left, List.append_assoc] }
  | readData buf answer =>
    obtain ⟨n, hr⟩ := serves_of_oneSource h hone
    have htaken : s.sock.unread.length + s.device.length
        - ((s.sock.readData s.device buf.1 buf.1.length answer).sock.unread.length
          + (s.sock.readData s.device buf.1 buf.1.length answer).device.length) = n := by
      have hrest := congrArg List.length hr.rest
      have hle := hr.le
      simp only [List.length_append, List.length_drop] at hrest hle
      omega
    have hserved := h.served hr
    rw [SocketSession.step]
    simp only [htaken]
    exact hserved
  | setRC4Encryptor e =>
    exact { h with sound := h.sound, cipher := rfl }

/-- A read of another kind breaks the law at once. -/
theorem Reading.not_intact (h : Reading s) {e : SocketEvent} (hone : ¬ OneSource s e) :
    ¬ Intact (s.step e) := by
  cases e with
  | readData buf answer =>
    intro hlaw
    obtain ⟨hshort, hbad⟩ : s.sock.unread.length < buf.1.length ∧
        (s.sock.unread ≠ [] ∨ answer = none) := by
      rw [OneSource, not_or, not_and_or, not_le, not_not] at hone
      exact hone
    have hcount := hlaw.counted
    rw [SocketSession.step] at hcount
    simp only [List.length_append, length_keyBytes, h.counted, Nat.add_left_cancel_iff] at hcount
    refine @readData_miscounts s.sock s.device _ _ _ h.sound rfl buf.2 hshort hbad ?_
    exact hcount
  | reinsert d => exact absurd trivial hone
  | arrive d => exact absurd trivial hone
  | setRC4Encryptor e => exact absurd trivial hone

/-- **Reinserted data is read like stream data, exactly when no read needs both sources.**
Along every run the returned bytes are the front of the stream, deciphered once, and
the rest is available, if and only if every read is served by the data put back alone or
by a device that has something. -/
theorem allStates_readInOrder_iff (es : List SocketEvent) :
    AllStates step Intact start es ↔ AllSteps step OneSource start es :=
  allStates_iff_allSteps (fun _ => Reading.intact) (fun _ _ h hone => h.step hone)
    (fun _ _ h hone => h.not_intact hone) es start reading_start

/-- Two bytes put back and one from the device, read at once: one is returned. -/
theorem straddling_read_loses :
    ¬ AllStates step Intact start
        [.reinsert [1, 2], .arrive [3], .readData ⟨[0, 0, 0], by decide⟩ (some 3)] := by
  intro h
  have hcount := h.2.2.2.counted
  revert hcount
  decide

end SocketSession

end KTorrent
