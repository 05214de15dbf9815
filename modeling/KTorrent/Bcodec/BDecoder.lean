import KTorrent.Bcodec.BNode
import KTorrent.Util.Constants

/-!
# The decoder

`BDecoder` walks over the data with a position of 32 bits.  The size of the data
is a `qsizetype`, and every test compares the position with that size cut to
32 bits.

The recursion of `decode` has no bound in the source, so the model counts it: the
fuel bounds how deep the calls are nested and how often a loop runs.
-/

namespace KTorrent

/-! ## Numbers in Qt -/

/-- `QChar::isSpace` for a Latin-1 character. -/
def isSpace (c : UInt8) : Bool := c == 32 || (9 ≤ c && c ≤ 13) || c == 133 || c == 160

/-- A decimal digit. -/
def isDigit (c : UInt8) : Bool := 48 ≤ c && c ≤ 57

/-- The value of a row of digits. -/
def digitsValue (cs : List UInt8) : ℕ := cs.foldl (fun v c => 10 * v + (c.toNat - 48)) 0

/-- A row of digits, at least one. -/
def unsignedValue (cs : List UInt8) : Option ℕ :=
  if cs ≠ [] ∧ cs.all isDigit then some (digitsValue cs) else none

/-- The whole number in a text: space around it is skipped, a sign is allowed. -/
def wholeNumber (s : List UInt8) : Option ℤ :=
  match ((s.dropWhile isSpace).reverse.dropWhile isSpace).reverse with
  | 45 :: cs => (unsignedValue cs).map fun v => -(v : ℤ)
  | 43 :: cs => (unsignedValue cs).map fun v => (v : ℤ)
  | cs => (unsignedValue cs).map fun v => (v : ℤ)

/-- A text converted to a signed integer of `w` bits; fails if it does not fit. -/
def toIntegral (w : ℕ) (s : List UInt8) : Option ℤ :=
  (wholeNumber s).filter fun v => -2 ^ (w - 1) ≤ v && v < 2 ^ (w - 1)

/-- `QString::toInt`. -/
def toInt (s : List UInt8) : Option ℤ := toIntegral 32 s

/-- `QString::toLongLong`. -/
def toLongLong (s : List UInt8) : Option ℤ := toIntegral 64 s

/-! ## Decoding -/

/-- What stops the decoder.  All but the last two are errors that it throws. -/
inductive DecodeError where
  | illegalToken (c : UInt8)
  | decodeError
  | unexpectedEndOfInput
  | cannotConvert (n : List UInt8)
  | torrentIsIncomplete
  | slicedOutside
  | outOfFuel
  deriving DecidableEq, Repr

namespace BDecoder

variable (data : List UInt8)

/-- `(Uint32)data.size()`. -/
def size : ℕ := u32 data.length

/-- `data.sliced(pos, len)`, which must lie inside the data. -/
def sliced (pos len : ℕ) : Except DecodeError (List UInt8) :=
  if pos + len ≤ data.length then .ok ((data.drop pos).take len) else .error .slicedOutside

/-- Moves the position to the next `c`, or to the end. -/
def scanTo (c : UInt8) (pos : ℕ) : ℕ :=
  if pos < size data ∧ data[pos]? ≠ some c then scanTo c (u32 (pos + 1)) else pos
termination_by size data - pos
decreasing_by
  have := u32_lt data.length
  rw [u32_of_lt] <;> unfold size at * <;> omega

/-- `BDecoder::parseInt`. -/
def parseInt (off : ℕ) : Except DecodeError (BNode × ℕ) := do
  let start := u32 (off + 1)
  let pos := scanTo data 101 start
  if pos ≥ size data then throw .unexpectedEndOfInput
  let n := (data.drop start).take (pos - start)
  let stop := u32 (pos + 1)
  match toInt n with
  | some val => return (.value (.int val) (← sliced data off (sub32 stop off)), stop)
  | none =>
    match toLongLong n with
    | some bi => return (.value (.int64 bi) (← sliced data off (sub32 stop off)), stop)
    | none => throw (.cannotConvert n)

/-- The loop of `parseString` over the digits of the length, in an `int`. -/
def parseLength : List UInt8 → ℕ → Option ℕ
  | [], len => some len
  | c :: cs, len =>
    if isDigit c then parseLength cs (u32 ((len <<< 3) + (len <<< 1) + (c.toNat - 48))) else none

/-- `BDecoder::parseString`.  The test `len < 0` is on the sign bit. -/
def parseString (off : ℕ) : Except DecodeError (BNode × ℕ) := do
  let colon := scanTo data 58 off
  if colon ≥ size data then throw .unexpectedEndOfInput
  let text := (data.drop off).take (colon - off)
  match parseLength text 0 with
  | none => throw (.cannotConvert text)
  | some len =>
    if len ≥ 2 ^ 31 then throw (.cannotConvert text)
    let pos := u32 (colon + 1)
    if u32 (pos + len) > size data then throw .torrentIsIncomplete
    let str ← sliced data pos len
    let stop := u32 (pos + len)
    return (.value (.string str) (← sliced data off (sub32 stop off)), stop)

/-- `pos < (Uint32)data.size() && data[pos] != 'e'`. -/
def inside (pos : ℕ) : Bool := pos < size data && data[pos]? != some 101

/-- What follows the loops of `parseDict` and `parseList`. -/
def closeAt (off pos : ℕ) : Except DecodeError (List UInt8 × ℕ) := do
  if pos ≥ size data ∨ data[pos]? ≠ some 101 then throw .unexpectedEndOfInput
  let stop := u32 (pos + 1)
  return (← sliced data off (sub32 stop off), stop)

/-- The key of an entry: the node has to be a string. -/
def keyOf : Option BNode → Except DecodeError (List UInt8)
  | some (.value (.string key) _) => .ok key
  | _ => .error .decodeError

section Loops

-- `decode` as it is called from inside a list or a dictionary
variable (decode : ℕ → Except DecodeError (Option BNode × ℕ))

/-- The loop of `BDecoder::parseDict`. -/
def dictLoop : ℕ → ℕ → List (List UInt8 × BNode) →
    Except DecodeError (List (List UInt8 × BNode) × ℕ)
  | 0, _, _ => .error .outOfFuel
  | fuel + 1, pos, children =>
    if inside data pos then do
      let (kn, pos) ← decode pos
      let key ← keyOf kn
      let (value, pos) ← decode pos
      match value with
      | none => throw .decodeError
      | some value => dictLoop fuel pos (children ++ [(key, value)])
    else return (children, pos)

/-- `BDecoder::parseDict`. -/
def parseDict (fuel off : ℕ) : Except DecodeError (BNode × ℕ) := do
  let (children, pos) ← dictLoop data decode fuel (u32 (off + 1)) []
  let (bytes, pos) ← closeAt data off pos
  return (.dict children bytes, pos)

/-- The loop of `BDecoder::parseList`. -/
def listLoop : ℕ → ℕ → List BNode → Except DecodeError (List BNode × ℕ)
  | 0, _, _ => .error .outOfFuel
  | fuel + 1, pos, children =>
    if inside data pos then do
      let (n, pos) ← decode pos
      listLoop fuel pos (children ++ n.toList)
    else return (children, pos)

/-- `BDecoder::parseList`. -/
def parseList (fuel off : ℕ) : Except DecodeError (BNode × ℕ) := do
  let (children, pos) ← listLoop data decode fuel (u32 (off + 1)) []
  let (bytes, pos) ← closeAt data off pos
  return (.list children bytes, pos)

end Loops

/-- The node that was parsed, as `decode` returns it. -/
def found (r : Except DecodeError (BNode × ℕ)) : Except DecodeError (Option BNode × ℕ) :=
  r.map fun (node, pos) => (some node, pos)

/-- `BDecoder::decode`, from the position `pos`: the node and the new position. -/
def decode : ℕ → ℕ → Except DecodeError (Option BNode × ℕ)
  | 0, _ => .error .outOfFuel
  | fuel + 1, pos =>
    if pos ≥ size data then .ok (none, pos)
    else
      match data[pos]? with
      | none => .ok (none, pos)
      | some c =>
        if c = 100 then found (parseDict data (decode fuel) fuel pos)
        else if c = 108 then found (parseList data (decode fuel) fuel pos)
        else if c = 105 then found (parseInt data pos)
        else if isDigit c then found (parseString data pos)
        else .error (.illegalToken c)

end BDecoder

end KTorrent
