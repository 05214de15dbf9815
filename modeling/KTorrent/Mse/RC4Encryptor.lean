import KTorrent.Lib.KeyStream

/-!
# `RC4Encryptor`

`mse/rc4encryptor.cpp`: two RC4 streams, one for each direction, both wound on by the
1024 bytes the constructor throws away.  The cipher itself is library code, so the
stream a key gives is a parameter, `rc4`.

* `RC4Encryptor.new` — from a decryption and an encryption key.
* `decrypt` — in place, the first `len` bytes of a buffer; `encrypt` — a copy.
-/

namespace KTorrent

/-- `enc` and `dec`. -/
structure RC4Encryptor where
  enc : KeyStream
  dec : KeyStream

namespace RC4Encryptor

/-- `RC4Encryptor(dk, ek)`: the first 1024 bytes of both streams are used up. -/
def new (rc4 : List UInt8 → ℕ → UInt8) (dk ek : List UInt8) : RC4Encryptor :=
  { enc := KeyStream.advance ⟨rc4 ek, 0⟩ 1024
    dec := KeyStream.advance ⟨rc4 dk, 0⟩ 1024 }

/-- `decrypt(data, len)`: the first `len` bytes of `data` in place.  The stream moves on
by `len`, whether or not the buffer is that long. -/
def decrypt (r : RC4Encryptor) (data : List UInt8) (len : ℕ) : List UInt8 × RC4Encryptor :=
  (r.dec.apply (data.take len) ++ data.drop len, { r with dec := r.dec.advance len })

/-- `encrypt(data)`. -/
def encrypt (r : RC4Encryptor) (data : List UInt8) : List UInt8 × RC4Encryptor :=
  (r.enc.apply data, { r with enc := r.enc.advance data.length })

variable (r : RC4Encryptor)

@[simp] theorem decrypt_length (data : List UInt8) (len : ℕ) :
    (r.decrypt data len).1.length = data.length := by
  simp only [decrypt, List.length_append, KeyStream.length_apply, List.length_take,
    List.length_drop]
  omega

@[simp] theorem decrypt_zero (data : List UInt8) : r.decrypt data 0 = (data, r) := by
  simp [decrypt]

@[simp] theorem decrypt_dec (data : List UInt8) (len : ℕ) :
    (r.decrypt data len).2.dec = r.dec.advance len := rfl

@[simp] theorem decrypt_enc (data : List UInt8) (len : ℕ) :
    (r.decrypt data len).2.enc = r.enc := rfl

end RC4Encryptor

end KTorrent
