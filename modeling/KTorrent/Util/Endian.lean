import Mathlib.Tactic

/-!
# Big-endian words

The wire helpers of `util/functions.h`: `WriteUint32` and `ReadUint32` move a
32-bit word most significant byte first, `WriteUint16` and `ReadUint16` a 16-bit
word.  `readUint32_writeUint32` and `readUint16_writeUint16` are their round
trips, wherever in a message the word stands.
-/

namespace KTorrent

/-- `WriteUint32`: the four bytes of a word, most significant first. -/
def writeUint32 (v : UInt32) : List UInt8 :=
  [UInt8.ofNat (v.toNat / 2 ^ 24), UInt8.ofNat (v.toNat / 2 ^ 16), UInt8.ofNat (v.toNat / 2 ^ 8),
    UInt8.ofNat v.toNat]

/-- `ReadUint32(buf, off)`; `none` when the four bytes are not all there. -/
def readUint32 (buf : List UInt8) (off : ℕ) : Option UInt32 :=
  match buf.drop off with
  | a :: b :: c :: d :: _ =>
      some (UInt32.ofNat (a.toNat * 2 ^ 24 + b.toNat * 2 ^ 16 + c.toNat * 2 ^ 8 + d.toNat))
  | _ => none

@[simp] theorem writeUint32_length (v : UInt32) : (writeUint32 v).length = 4 := rfl

/-- A word stored by `WriteUint32` is read back by `ReadUint32`. -/
theorem readUint32_writeUint32 (pre post : List UInt8) (v : UInt32) :
    readUint32 (pre ++ (writeUint32 v ++ post)) pre.length = some v := by
  rw [readUint32, List.drop_left]
  simp only [writeUint32, List.cons_append, List.nil_append, UInt8.toNat_ofNat', Option.some.injEq]
  apply UInt32.toNat_inj.1
  have hv : v.toNat < 2 ^ 32 := v.toNat_lt
  rw [UInt32.toNat_ofNat']
  omega

/-! ## Halves -/

/-- `WriteUint16`: the two bytes of a word, most significant first. -/
def writeUint16 (v : UInt16) : List UInt8 := [UInt8.ofNat (v.toNat / 2 ^ 8), UInt8.ofNat v.toNat]

/-- `ReadUint16(buf, off)`; `none` when the two bytes are not both there. -/
def readUint16 (buf : List UInt8) (off : ℕ) : Option UInt16 :=
  match buf.drop off with
  | a :: b :: _ => some (UInt16.ofNat (a.toNat * 2 ^ 8 + b.toNat))
  | _ => none

@[simp] theorem writeUint16_length (v : UInt16) : (writeUint16 v).length = 2 := rfl

/-- A word stored by `WriteUint16` is read back by `ReadUint16`. -/
theorem readUint16_writeUint16 (pre post : List UInt8) (v : UInt16) :
    readUint16 (pre ++ (writeUint16 v ++ post)) pre.length = some v := by
  rw [readUint16, List.drop_left]
  simp only [writeUint16, List.cons_append, List.nil_append, UInt8.toNat_ofNat', Option.some.injEq]
  apply UInt16.toNat_inj.1
  have hv : v.toNat < 2 ^ 16 := v.toNat_lt
  rw [UInt16.toNat_ofNat']
  omega

/-! ## Double words -/

/-- `WriteUint64`: the eight bytes of a word, most significant first. -/
def writeUint64 (v : UInt64) : List UInt8 :=
  writeUint32 (UInt32.ofNat (v.toNat / 2 ^ 32)) ++ writeUint32 (UInt32.ofNat v.toNat)

end KTorrent
