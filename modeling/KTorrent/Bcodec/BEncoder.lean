import KTorrent.Bcodec.BNode

/-!
# The encoder

`BEncoder` writes a tree from outside to inside: the caller begins a list or a
dictionary, writes what is in it and ends it.

* `BTree` — what can be written that way and read again.
* `BTree.write` — the calls for a tree.
* `BTree.encode` — the bytes they emit.
-/

namespace KTorrent

/-- `QByteArray::number`: the decimal digits. -/
def number (n : ℕ) : List UInt8 := (Nat.toDigits 10 n).map fun c => UInt8.ofNat c.toNat

/-! ## The calls -/

/-- `BEncoder`, with the bytes that its output got. -/
structure BEncoder where
  out : List UInt8
  deriving DecidableEq, Repr

namespace BEncoder

/-- `BEncoderOutput::write`. -/
def append (e : BEncoder) (str : List UInt8) : BEncoder := ⟨e.out ++ str⟩

/-- `BEncoder::beginDict`. -/
def beginDict (e : BEncoder) : BEncoder := e.append [100]

/-- `BEncoder::beginList`. -/
def beginList (e : BEncoder) : BEncoder := e.append [108]

/-- `BEncoder::write(Uint64)`; `write(Uint32)` and `write(bool)` emit the same for
the numbers they take. -/
def writeUint64 (e : BEncoder) (val : ℕ) : BEncoder := e.append (105 :: (number val ++ [101]))

/-- `BEncoder::write(QByteArrayView)`. -/
def writeBytes (e : BEncoder) (data : List UInt8) : BEncoder :=
  ((e.append (number data.length)).append [58]).append data

/-- `BEncoder::end`. -/
def end_ (e : BEncoder) : BEncoder := e.append [101]

end BEncoder

/-! ## Trees -/

/-- A byte string shorter than 2 GiB. -/
abbrev BString := { s : List UInt8 // s.length < 2 ^ 31 }

/-- The string of a text in the source. -/
def bkey (s : String) (h : (ascii s).length < 2 ^ 31 := by decide) : BString := ⟨ascii s, h⟩

/-- A tree of byte strings, unsigned integers below `2 ^ 63`, lists and dictionaries. -/
inductive BTree where
  | string (s : BString)
  | int (n : Fin (2 ^ 63))
  | list (items : List BTree)
  | dict (entries : List (BString × BTree))

namespace BTree

mutual

/-- The calls that write a tree. -/
def write : BTree → BEncoder → BEncoder
  | .string s, e => e.writeBytes s
  | .int n, e => e.writeUint64 n
  | .list items, e => (writeItems items e.beginList).end_
  | .dict entries, e => (writeEntries entries e.beginDict).end_

/-- The calls for the items of a list. -/
def writeItems : List BTree → BEncoder → BEncoder
  | [], e => e
  | t :: ts, e => writeItems ts (write t e)

/-- The calls for the entries of a dictionary. -/
def writeEntries : List (BString × BTree) → BEncoder → BEncoder
  | [], e => e
  | (key, t) :: es, e => writeEntries es (write t (e.writeBytes key))

end

/-- The bytes of a string. -/
def encodeBytes (s : List UInt8) : List UInt8 := number s.length ++ 58 :: s

mutual

/-- The bytes of a tree. -/
def encode : BTree → List UInt8
  | .string s => encodeBytes s
  | .int n => 105 :: (number n ++ [101])
  | .list items => 108 :: (encodeItems items ++ [101])
  | .dict entries => 100 :: (encodeEntries entries ++ [101])

/-- The bytes of the items of a list. -/
def encodeItems : List BTree → List UInt8
  | [] => []
  | t :: ts => encode t ++ encodeItems ts

/-- The bytes of the entries of a dictionary. -/
def encodeEntries : List (BString × BTree) → List UInt8
  | [] => []
  | (key, t) :: es => encodeBytes key ++ (encode t ++ encodeEntries es)

end

mutual

/-- The node holds the same tree: strings byte for byte, integers as `toInt64`
gives them, entries in the same order. -/
def Equals : BTree → BNode → Prop
  | .string s, .value (.string strval) _ => strval = s
  | .int n, .value (.int ival) _ => (Value.int ival).toInt64 = (n : ℕ)
  | .int n, .value (.int64 bigIval) _ => (Value.int64 bigIval).toInt64 = (n : ℕ)
  | .list items, .list children _ => EqualsItems items children
  | .dict entries, .dict children _ => EqualsEntries entries children
  | _, _ => False

/-- The nodes hold the same trees, one by one. -/
def EqualsItems : List BTree → List BNode → Prop
  | [], [] => True
  | t :: ts, n :: ns => Equals t n ∧ EqualsItems ts ns
  | _, _ => False

/-- The entries have the same keys and hold the same trees, one by one. -/
def EqualsEntries : List (BString × BTree) → List (List UInt8 × BNode) → Prop
  | [], [] => True
  | (key, t) :: es, (k, n) :: ns => k = key ∧ Equals t n ∧ EqualsEntries es ns
  | _, _ => False

end

end BTree

end KTorrent
