import KTorrent.Bcodec.BNode
import KTorrent.Lib.BigEndian
import KTorrent.Lib.Buffer

/-!
# `BigInt` and the key functions

`mse/bigint.cpp` and `mse/functions.cpp`.  A `BigInt` is a number; the multiple-precision
library exports its digits without leading zeros.

* `BigInt.toBuffer`, `BigInt.fromBuffer`, `BigInt.powerMod`.
* `publicKey`, `dhSecret`, `encryptionKeyInput` — over the prime `P`.
* `toBuffer_eq_padded_iff` — when `toBuffer` fills a field from its first byte to its last.
* `dhSecret_publicKey` — both sides of the exchange raise 2 to the same power.
-/

namespace KTorrent

open Buffer BigEndian

/-- A buffer on the stack, with whatever it holds. -/
abbrev LocalBuffer (n : ℕ) := { buf : List UInt8 // buf.length = n }

namespace BigInt

/-- `toBuffer(buf + off, max_size)`: `mpz_export` writes the digits, as many as there
are; `max_size` is not looked at. -/
def toBuffer (v : ℕ) (buf : List UInt8) (off _maxSize : ℕ) : List UInt8 × ℕ :=
  (overwrite buf off (minimal v), (minimal v).length)

/-- `fromBuffer(buf, size)`. -/
def fromBuffer (buf : List UInt8) (size : ℕ) : ℕ := BigEndian.number (buf.take size)

/-- `powerMod(x, e, d)`. -/
def powerMod (x e d : ℕ) : ℕ := x ^ e % d

end BigInt

namespace Mse

/-- The prime of the exchange. -/
def P : ℕ :=
  0xFFFFFFFFFFFFFFFFC90FDAA22168C234C4C6628B80DC1CD129024E088A67CC74020BBEA63B139B22514A08798E3404DDEF9519B3CD3A431B302B0A6DF25F14374FE1356D6D51C245E485B576625E7EC6F44C42E9A63A36210000000000090563

/-- The public key of a private one. -/
def publicKey (priv : ℕ) : ℕ := BigInt.powerMod 2 priv P

/-- `DHSecret(our_priv, peer_pub)`. -/
def dhSecret (ourPriv peerPub : ℕ) : ℕ := BigInt.powerMod peerPub ourPriv P

/-- What `EncryptionKey(a, s, skey)` hashes; `buf` is its local buffer. -/
def encryptionKeyInput (a : Bool) (s : ℕ) (skey : LocalBuffer 20) (buf : LocalBuffer 120) :
    List UInt8 :=
  let buf := overwrite buf.1 0 (ascii "key")
  let buf := overwrite buf 3 (if a then ascii "A" else ascii "B")
  let buf := (BigInt.toBuffer s buf 4 96).1
  let buf := overwrite buf 100 skey.1
  buf.take 120

/-! ## Numbers that fill 96 bytes -/

/-- All 96 bytes are digits: the first of them is not zero. -/
def Fills (v : ℕ) : Prop := 256 ^ 95 ≤ v

instance (v : ℕ) : Decidable (Fills v) := inferInstanceAs (Decidable (_ ≤ _))

theorem publicKey_lt (priv : ℕ) : publicKey priv < 256 ^ 96 :=
  (Nat.mod_lt _ (by decide)).trans (by decide)

/-- The prime is odd, so no power of two is a multiple of it. -/
theorem publicKey_ne_zero (priv : ℕ) : publicKey priv ≠ 0 := by
  intro h
  have hdvd : P ∣ 2 ^ priv := Nat.dvd_of_mod_eq_zero h
  have hcoprime : Nat.Coprime P (2 ^ priv) :=
    Nat.Coprime.pow_right priv (Nat.coprime_two_right.mpr (by decide))
  exact absurd (Nat.Coprime.eq_one_of_dvd hcoprime hdvd) (by decide)

/-- Both sides raise 2 to the product of the private keys. -/
theorem dhSecret_publicKey (xa xb : ℕ) : dhSecret xb (publicKey xa) = publicKey (xa * xb) := by
  rw [dhSecret, publicKey, publicKey, BigInt.powerMod, BigInt.powerMod, BigInt.powerMod,
    ← Nat.pow_mod, pow_mul]

/-- **`toBuffer` writes the number with zeros in front exactly when it needs none**, or
when the number is zero and the buffer was. -/
theorem toBuffer_eq_padded_iff (v : ℕ) (buf : LocalBuffer 96) :
    (BigInt.toBuffer v buf.1 0 96).1 = padded 96 v ↔
      Fills v ∨ (v = 0 ∧ buf.1 = List.replicate 96 0) := by
  have hbuf := buf.2
  rw [BigInt.toBuffer, overwrite_zero]
  by_cases hv : v = 0
  · subst hv
    have hnot : ¬ Fills 0 := by decide
    simp [padded, minimal, hnot]
  simp only [hv, false_and, or_false]
  by_cases hlt : v < 256 ^ 96
  · have hle : (minimal v).length ≤ 96 := length_minimal_le_iff.mpr hlt
    have hall : (minimal v ++ buf.1.drop (minimal v).length).length = 96 := by
      rw [List.length_append, List.length_drop]
      omega
    have hiff := take_eq_padded_iff hv hlt (by rw [hall]; decide)
    rwa [List.take_of_length_le hall.le] at hiff
  · have hlong : 96 < (minimal v).length := lt_length_minimal_iff.mpr (not_lt.mp hlt)
    have hfills : Fills v := (Nat.pow_le_pow_right (by decide) (by decide)).trans (not_lt.mp hlt)
    rw [List.drop_eq_nil_of_le (by omega), List.append_nil, padded,
      Nat.sub_eq_zero_of_le hlong.le]
    exact iff_of_true rfl hfills

end Mse

end KTorrent
