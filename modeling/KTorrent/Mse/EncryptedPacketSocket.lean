import KTorrent.Lib.Buffer
import KTorrent.Mse.RC4Encryptor

/-!
# `EncryptedPacketSocket`

The receiving half of `mse/encryptedpacketsocket.cpp`: a socket in front of a device,
with a buffer of data that was put back and, perhaps, a cipher.

* `recv` — the device: it hands over some of the bytes that have come, or answers −1.
* `reinsert`, `readData`, `bytesAvailable`, `setRC4Encryptor` — as the socket does them.
* `unread` — the bytes put back and not read again; `readData_reinserted` and
  `readData_device` say what a read returns that one of the two sources serves alone.
-/

namespace KTorrent

open Buffer

/-- `reinserted_data`, `reinserted_data_size`, `reinserted_data_read` and `enc`. -/
structure EncryptedPacketSocket where
  reinsertedData : Option (List UInt8)
  reinsertedDataSize : ℕ
  reinsertedDataRead : ℕ
  enc : Option RC4Encryptor

/-- `sock->recv(buf, maxLen)` on a device holding `device`: the returned value as the
`Uint32` the callers keep it in, the bytes, and what the device still holds.  It hands
over as many bytes as it likes, or returns −1 (`none`). -/
def recv (device : List UInt8) (maxLen : ℕ) : Option ℕ → ℕ × List UInt8 × List UInt8
  | none => (2 ^ 32 - 1, [], device)
  | some k =>
    let n := min k (min maxLen device.length)
    (n, device.take n, device.drop n)

namespace EncryptedPacketSocket

/-- The three constructors. -/
def new : EncryptedPacketSocket := ⟨none, 0, 0, none⟩

/-- `setRC4Encryptor(e)`. -/
def setRC4Encryptor (s : EncryptedPacketSocket) (e : Option RC4Encryptor) :
    EncryptedPacketSocket := { s with enc := e }

/-- `reinsert(d, size)`. -/
def reinsert (s : EncryptedPacketSocket) (d : List UInt8) : EncryptedPacketSocket :=
  match s.reinsertedData with
  | some data =>
    { s with
      reinsertedData := some (data.take s.reinsertedDataSize ++ d)
      reinsertedDataSize := s.reinsertedDataSize + d.length }
  | none => { s with reinsertedData := some d, reinsertedDataSize := d.length }

/-- `bytesAvailable()` over a device holding `device`. -/
def bytesAvailable (s : EncryptedPacketSocket) (device : List UInt8) : ℕ :=
  if s.reinsertedDataSize - s.reinsertedDataRead > 0 then
    device.length + (s.reinsertedDataSize - s.reinsertedDataRead)
  else device.length

/-- `if (enc) enc->decrypt(buf, len)`. -/
def decryptWith : Option RC4Encryptor → List UInt8 → ℕ → List UInt8 × Option RC4Encryptor
  | some e, buf, len => ((e.decrypt buf len).1, some (e.decrypt buf len).2)
  | none, buf, _ => (buf, none)

/-- What `readData` leaves: its return value, the buffer, the socket and the device. -/
structure Read where
  ret : ℕ
  buf : List UInt8
  sock : EncryptedPacketSocket
  device : List UInt8

/-- The second half of `readData`: the `ret2` bytes at the front of the buffer are there
already, the device serves the rest. -/
def readDevice (s : EncryptedPacketSocket) (device buf : List UInt8) (len ret2 : ℕ)
    (answer : Option ℕ) : Read :=
  if len = ret2 then ⟨ret2, buf, s, device⟩
  else
    let (ret, got, device) := recv device (len - ret2) answer
    let buf := overwrite buf ret2 got
    if (ret + ret2) % 2 ^ 32 > 0 then
      let (buf, enc) := decryptWith s.enc buf ((ret + ret2) % 2 ^ 32)
      ⟨ret, buf, { s with enc := enc }, device⟩
    else ⟨ret, buf, s, device⟩

/-- `readData(buf, len)`, where `buf` is what the buffer held before. -/
def readData (s : EncryptedPacketSocket) (device buf : List UInt8) (len : ℕ)
    (answer : Option ℕ) : Read :=
  match s.reinsertedData with
  | some data =>
    let tr := s.reinsertedDataSize - s.reinsertedDataRead
    if tr < len then
      let buf := overwrite buf 0 ((data.drop s.reinsertedDataRead).take tr)
      let (buf, enc) := decryptWith s.enc buf tr
      readDevice ⟨none, 0, 0, enc⟩ device buf len tr answer
    else
      let buf := overwrite buf 0 ((data.drop s.reinsertedDataRead).take len)
      let (buf, enc) := decryptWith s.enc buf len
      ⟨len, buf, ⟨some data, s.reinsertedDataSize, s.reinsertedDataRead + len, enc⟩, device⟩
  | none => readDevice s device buf len 0 answer

/-! ## What is unread -/

/-- The bytes that were put back and not read again. -/
def unread (s : EncryptedPacketSocket) : List UInt8 :=
  match s.reinsertedData with
  | some data => data.drop s.reinsertedDataRead
  | none => []

/-- The counters belong to the buffer. -/
def Sound (s : EncryptedPacketSocket) : Prop :=
  match s.reinsertedData with
  | some data => data.length = s.reinsertedDataSize ∧ s.reinsertedDataRead ≤ s.reinsertedDataSize
  | none => s.reinsertedDataSize = 0 ∧ s.reinsertedDataRead = 0

/-- Data deciphered with the cipher in use. -/
def decipher : Option RC4Encryptor → List UInt8 → List UInt8
  | some e, bs => e.dec.apply bs
  | none, bs => bs

/-- The cipher in use, `n` bytes further on. -/
def advance (enc : Option RC4Encryptor) (n : ℕ) : Option RC4Encryptor :=
  enc.map fun e => { e with dec := e.dec.advance n }

variable {s : EncryptedPacketSocket} {device buf : List UInt8} {len : ℕ} {answer : Option ℕ}

@[simp] theorem length_decipher (enc : Option RC4Encryptor) (bs : List UInt8) :
    (decipher enc bs).length = bs.length := by
  cases enc <;> simp [decipher]

@[simp] theorem decipher_nil (enc : Option RC4Encryptor) : decipher enc [] = [] := by
  cases enc <;> rfl

theorem decipher_append (enc : Option RC4Encryptor) (xs ys : List UInt8) :
    decipher enc (xs ++ ys) = decipher enc xs ++ decipher (advance enc xs.length) ys := by
  cases enc <;> simp [decipher, advance, KeyStream.apply_append]

/-- What is deciphered does not depend on what comes behind it. -/
theorem decipher_prefix (enc : Option RC4Encryptor) {xs ys : List UInt8} (h : xs <+: ys) :
    decipher enc xs <+: decipher enc ys := by
  obtain ⟨zs, rfl⟩ := h
  rw [decipher_append]
  exact List.prefix_append _ _

@[simp] theorem advance_zero (enc : Option RC4Encryptor) : advance enc 0 = enc := by
  cases enc <;> rfl

@[simp] theorem advance_advance (enc : Option RC4Encryptor) (m n : ℕ) :
    advance (advance enc m) n = advance enc (m + n) := by
  cases enc <;> simp [advance]

/-- `decrypt` on the bytes at the front of a buffer. -/
theorem decryptWith_front (enc : Option RC4Encryptor) (xs ys : List UInt8) :
    decryptWith enc (xs ++ ys) xs.length = (decipher enc xs ++ ys, advance enc xs.length) := by
  cases enc <;> simp [decryptWith, decipher, advance, RC4Encryptor.decrypt]

@[simp] theorem decryptWith_length (enc : Option RC4Encryptor) (bs : List UInt8) (n : ℕ) :
    (decryptWith enc bs n).1.length = bs.length := by
  cases enc <;> simp [decryptWith]

theorem unread_length_le (h : s.Sound) :
    s.unread.length = s.reinsertedDataSize - s.reinsertedDataRead := by
  obtain ⟨data, size, read, enc⟩ := s
  cases data with
  | none => simp_all [Sound, unread]
  | some data => simp_all [Sound, unread]

theorem bytesAvailable_eq (h : s.Sound) :
    s.bytesAvailable device = s.unread.length + device.length := by
  rw [bytesAvailable, unread_length_le h]
  split <;> omega

theorem sound_new : new.Sound := ⟨rfl, rfl⟩

/-- What is put back is read after what was put back before. -/
theorem reinsert_spec (h : s.Sound) (d : List UInt8) :
    (s.reinsert d).Sound ∧ (s.reinsert d).unread = s.unread ++ d ∧ (s.reinsert d).enc = s.enc := by
  obtain ⟨data, size, read, enc⟩ := s
  cases data with
  | none => simp_all [Sound, unread, reinsert]
  | some data =>
    obtain ⟨rfl, hread⟩ : data.length = size ∧ read ≤ size := h
    have hle : read ≤ data.length + d.length := by omega
    simp [Sound, unread, reinsert, List.drop_append_of_le_length hread, hle]

/-! ## What a read returns -/

/-- `n` bytes were returned: the next ones of the put-back data and the device, each
deciphered once. -/
structure Serves (s : EncryptedPacketSocket) (device : List UInt8) (r : Read) (n : ℕ) : Prop where
  sound : r.sock.Sound
  ret : r.ret = n
  le : n ≤ (s.unread ++ device).length
  bytes : r.buf.take n = decipher s.enc ((s.unread ++ device).take n)
  rest : r.sock.unread ++ r.device = (s.unread ++ device).drop n
  enc : r.sock.enc = advance s.enc n

/-- Only the unread bytes and the cipher of the socket matter. -/
theorem Serves.congr {s' : EncryptedPacketSocket} {r : Read} {n : ℕ} (h : Serves s device r n)
    (hunread : s'.unread = s.unread) (henc : s'.enc = s.enc) : Serves s' device r n :=
  ⟨h.sound, h.ret, hunread ▸ h.le, by rw [hunread, henc]; exact h.bytes,
    by rw [hunread]; exact h.rest, by rw [henc]; exact h.enc⟩

/-- The second half of a read that has nothing yet. -/
theorem readDevice_serves (hs : s.Sound) (hunread : s.unread = []) (hbuf : buf.length = len)
    (hlen : len < 2 ^ 32) (k : ℕ) :
    Serves s device (s.readDevice device buf len 0 (some k)) (min k (min len device.length)) := by
  rw [readDevice]
  by_cases h0 : len = 0
  · subst h0
    rw [if_pos rfl]
    exact ⟨hs, by simp, by simp, by simp, by simp, by simp⟩
  rw [if_neg h0]
  obtain ⟨n, hn⟩ : ∃ n, n = min k (min len device.length) := ⟨_, rfl⟩
  rw [← hn]
  have hrecv : recv device len (some k) = (n, device.take n, device.drop n) := by rw [hn]; rfl
  have hgot : (device.take n).length = n := by simp; omega
  have hmod : n % 2 ^ 32 = n := Nat.mod_eq_of_lt (by omega)
  have hcopy : overwrite buf 0 (device.take n) = device.take n ++ buf.drop n := by
    simp [overwrite, hgot]
  have hdec := decryptWith_front s.enc (device.take n) (buf.drop n)
  rw [hgot] at hdec
  simp only [Nat.sub_zero, hrecv, Nat.add_zero, hmod, hcopy, hdec]
  have hserved : Serves s device ⟨n, decipher s.enc (device.take n) ++ buf.drop n,
      { s with enc := advance s.enc n }, device.drop n⟩ n := {
    sound := by simpa [Sound] using hs
    ret := rfl
    le := by simp [hunread]; omega
    bytes := by
      rw [hunread, List.nil_append]
      exact List.take_left' (by rw [length_decipher, hgot])
    rest := by rw [hunread]; exact congrArg (· ++ _) hunread
    enc := rfl }
  split
  · exact hserved
  · obtain rfl : n = 0 := by omega
    simpa using hserved

/-- A read that the data put back serves alone. -/
theorem readData_reinserted (hs : s.Sound) (hlen : len ≤ s.unread.length)
    (hbuf : buf.length = len) : Serves s device (s.readData device buf len answer) len := by
  obtain ⟨data, size, read, enc⟩ := s
  cases data with
  | none =>
    obtain rfl : len = 0 := by simpa [unread] using hlen
    simp only [readData, readDevice, if_pos]
    exact ⟨hs, rfl, by simp, by simp, by simp, by simp⟩
  | some data =>
    obtain ⟨rfl, hread⟩ : data.length = size ∧ read ≤ size := hs
    have hlen' : len ≤ data.length - read := by simpa [unread] using hlen
    have hcopy : overwrite buf 0 ((data.drop read).take len) = (data.drop read).take len ++ [] := by
      have hl : ((data.drop read).take len).length = len := by simp; omega
      rw [overwrite, List.take_zero, List.nil_append, hl, Nat.zero_add, ← hbuf, List.drop_length]
    have hl : ((data.drop read).take len).length = len := by simp; omega
    rw [readData]
    dsimp only
    rw [if_neg (by omega), hcopy]
    have hdec := decryptWith_front enc ((data.drop read).take len) []
    rw [hl] at hdec
    rw [hdec]
    exact {
      sound := ⟨rfl, by show read + len ≤ data.length; omega⟩
      ret := rfl
      le := by simp only [unread, List.length_append, List.length_drop]; omega
      bytes := by
        have hle : len ≤ (data.drop read).length := by simpa using hlen'
        simp [unread, List.take_append_of_le_length hle]
      rest := by
        have hle : len ≤ (data.drop read).length := by simpa using hlen'
        simp [unread, List.drop_append_of_le_length hle]
      enc := rfl }

/-- A read that the device serves alone. -/
theorem readData_device (hs : s.Sound) (hunread : s.unread = []) (hbuf : buf.length = len)
    (hlen : len < 2 ^ 32) (k : ℕ) :
    Serves s device (s.readData device buf len (some k)) (min k (min len device.length)) := by
  obtain ⟨data, size, read, enc⟩ := s
  cases data with
  | none => exact readDevice_serves hs hunread hbuf hlen k
  | some data =>
    obtain ⟨rfl, hread⟩ : data.length = size ∧ read ≤ size := hs
    have hall : data.length - read = 0 := by
      have hnil : (data.drop read).length = 0 := by rw [show data.drop read = [] from hunread]; rfl
      simpa using hnil
    rw [readData]
    dsimp only
    rw [hall]
    -- nothing is copied and nothing deciphered from the emptied buffer
    have hdec := decryptWith_front enc [] buf
    simp only [decipher_nil, List.nil_append, List.length_nil, advance_zero] at hdec
    by_cases h0 : len = 0
    · subst h0
      rw [if_neg (by omega)]
      simp only [overwrite, List.take_zero, List.nil_append, List.length_nil, Nat.add_zero,
        List.drop_zero, hdec]
      refine ⟨⟨rfl, hread⟩, by simp, by simp, by simp, by simp [unread], by simp⟩
    · rw [if_pos (by omega)]
      simp only [overwrite, List.take_zero, List.nil_append, List.length_nil, Nat.add_zero,
        List.drop_zero, hdec]
      exact (readDevice_serves (s := ⟨none, 0, 0, enc⟩) sound_new rfl hbuf hlen k).congr hunread rfl

/-! ## Reads that need both sources -/

/-- What the device half of a read leaves, whatever the device does. -/
theorem readDevice_eq {ret2 : ℕ} (hlen : ret2 < len) (hbuf : buf.length = len) :
    (s.readDevice device buf len ret2 answer).ret = (recv device (len - ret2) answer).1 ∧
      (s.readDevice device buf len ret2 answer).device = (recv device (len - ret2) answer).2.2 ∧
      (s.readDevice device buf len ret2 answer).sock.unread = s.unread ∧
      (s.readDevice device buf len ret2 answer).buf.length = len := by
  have hgot : ret2 + (recv device (len - ret2) answer).2.1.length ≤ buf.length := by
    cases answer with
    | none => simp [recv]; omega
    | some k => simp [recv]; omega
  have hcopy := length_overwrite hgot
  rw [readDevice, if_neg (by omega)]
  dsimp only
  split
  · exact ⟨rfl, rfl, rfl, by rw [decryptWith_length, hcopy, hbuf]⟩
  · exact ⟨rfl, rfl, rfl, by rw [hcopy, hbuf]⟩

/-- A read puts nothing back. -/
theorem readData_unread (hs : s.Sound) (hbuf : buf.length = len) (hnil : s.unread = []) :
    (s.readData device buf len answer).sock.unread = [] := by
  obtain ⟨data, size, read, enc⟩ := s
  cases data with
  | none =>
    rw [readData]
    by_cases h0 : len = 0
    · rw [readDevice, if_pos h0]
      exact hnil
    · rw [(readDevice_eq (by omega) hbuf).2.2.1]
      exact hnil
  | some data =>
    obtain ⟨rfl, hread⟩ : data.length = size ∧ read ≤ size := hs
    have hdata : data.drop read = [] := hnil
    rw [readData]
    dsimp only
    split
    · rename_i hlt
      rw [(readDevice_eq hlt (by rw [decryptWith_length, length_overwrite (by simp; omega),
        hbuf])).2.2.1]
      rfl
    · show data.drop (read + len) = []
      rw [← List.drop_drop, hdata, List.drop_nil]

/-- A read stays inside the buffer. -/
theorem readData_length (hs : s.Sound) (hbuf : buf.length = len) :
    (s.readData device buf len answer).buf.length = len := by
  obtain ⟨data, size, read, enc⟩ := s
  cases data with
  | none =>
    rw [readData]
    by_cases h0 : len = 0
    · rw [readDevice, if_pos h0]
      exact hbuf
    · exact (readDevice_eq (by omega) hbuf).2.2.2
  | some data =>
    obtain ⟨rfl, hread⟩ : data.length = size ∧ read ≤ size := hs
    rw [readData]
    dsimp only
    split
    · rename_i hlt
      refine (readDevice_eq hlt ?_).2.2.2
      rw [decryptWith_length, length_overwrite (by simp; omega), hbuf]
    · rw [decryptWith_length, length_overwrite (by simp; omega), hbuf]

/-- A read that needs both sources, and gets all it asked for, runs the cipher over the
data put back twice. -/
theorem readData_both_enc (hs : s.Sound) (hbuf : buf.length = len) (hlen : len < 2 ^ 32)
    (hne : s.unread ≠ []) (hshort : s.unread.length < len)
    (hall : len ≤ s.unread.length + device.length) :
    (s.readData device buf len (some len)).sock.enc
      = advance s.enc (s.unread.length + len) := by
  have hcount := unread_length_le hs
  obtain ⟨data, size, read, enc⟩ := s
  cases data with
  | none => exact absurd rfl hne
  | some data =>
    obtain ⟨rfl, hread⟩ : data.length = size ∧ read ≤ size := hs
    have hpos : 0 < (data.drop read).length := List.length_pos_iff.mpr hne
    rw [hcount] at hshort hall ⊢
    dsimp only at hshort hall ⊢
    rw [readData]
    dsimp only
    rw [if_pos hshort, readDevice, if_neg (by omega)]
    have hrecv : (recv device (len - (data.length - read)) (some len)).1
        + (data.length - read) = len := by simp [recv]; omega
    have hdec : ∀ (e : Option RC4Encryptor) (bs : List UInt8) (n : ℕ),
        (decryptWith e bs n).2 = advance e n := by
      intro e bs n
      cases e <;> rfl
    simp only [hrecv, Nat.mod_eq_of_lt hlen]
    rw [if_pos (by omega)]
    simp only [hdec, advance_advance]

/-- **A read that runs out of put-back data miscounts**: it asks the device for the rest
and returns only what the device answered, or −1 when the device has nothing. -/
theorem readData_miscounts (hs : s.Sound) (hbuf : buf.length = len) (hlen : len < 2 ^ 32)
    (hshort : s.unread.length < len) (hbad : s.unread ≠ [] ∨ answer = none) :
    ((s.readData device buf len answer).buf.take (s.readData device buf len answer).ret).length ≠
      s.unread.length + device.length - ((s.readData device buf len answer).sock.unread.length +
        (s.readData device buf len answer).device.length) := by
  obtain ⟨r, hr⟩ : ∃ r, r = s.readData device buf len answer := ⟨_, rfl⟩
  -- in both branches the device half has `s.unread.length` bytes already
  have hdev : r.ret = (recv device (len - s.unread.length) answer).1 ∧
      r.device = (recv device (len - s.unread.length) answer).2.2 ∧
      r.sock.unread = [] ∧ r.buf.length = len := by
    subst hr
    have hcount := unread_length_le hs
    obtain ⟨data, size, read, enc⟩ := s
    cases data with
    | none => exact readDevice_eq (s := ⟨none, size, read, enc⟩) (Nat.zero_lt_of_lt hshort) hbuf
    | some data =>
      obtain ⟨rfl, hread⟩ : data.length = size ∧ read ≤ size := hs
      rw [hcount] at hshort ⊢
      rw [readData]
      dsimp only at hshort ⊢
      rw [if_pos hshort]
      refine readDevice_eq (s := ⟨none, 0, 0, _⟩) hshort ?_
      rw [decryptWith_length, length_overwrite (by simp; omega), hbuf]
  obtain ⟨hret, hdevice, hsock, hlength⟩ := hdev
  rw [← hr, List.length_take, hlength, hret, hsock, hdevice]
  cases answer with
  | none => simp [recv]; omega
  | some k =>
    have hne : s.unread.length ≠ 0 := by
      simpa using hbad.resolve_right (by simp)
    simp [recv]
    omega

end EncryptedPacketSocket

end KTorrent
