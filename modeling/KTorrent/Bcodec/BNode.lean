import Mathlib.Tactic

/-!
# Bencoded values

The tree that the decoder builds.  Every node also has the bytes it was decoded
from, which is what an info hash is computed over.  The getters of a dictionary
and of a list throw when the child is missing or has another type.
-/

namespace KTorrent

/-- `Value`.  The number of an `int` fits in 32 bits, the one of an `int64` does
not need to. -/
inductive Value where
  | string (strval : List UInt8)
  | int (ival : ℤ)
  | int64 (bigIval : ℤ)
  deriving DecidableEq, Repr

/-- `Value::toInt64`. -/
def Value.toInt64 : Value → ℤ
  | .string _ => 0
  | .int ival => ival
  | .int64 bigIval => bigIval

/-- `BNode` with its three classes `BValueNode`, `BListNode` and `BDictNode`. -/
inductive BNode where
  | value (value : Value) (bytes : List UInt8)
  | list (children : List BNode) (bytes : List UInt8)
  | dict (children : List (List UInt8 × BNode)) (bytes : List UInt8)
  deriving Repr

/-- `BNode::getBytes`. -/
def BNode.getBytes : BNode → List UInt8
  | .value _ bytes => bytes
  | .list _ bytes => bytes
  | .dict _ bytes => bytes

/-! ## Getters -/

/-- The bytes of a text in the source. -/
def ascii (s : String) : List UInt8 := s.toList.map fun c => UInt8.ofNat c.toNat

/-- What the getters throw. -/
inductive NodeError where
  /-- "Key %1 not found in dict" -/
  | keyNotFound (key : List UInt8)
  /-- "Key not found in dict", which is also the text for a list -/
  | childNotFound
  /-- "Incompatible type" -/
  | incompatibleType
  deriving DecidableEq, Repr

/-- The entries of a `BDictNode`. -/
abbrev BDictNode := List (List UInt8 × BNode)

namespace BNode

/-- `dynamic_cast<BDictNode *>`. -/
def asDict : BNode → Option BDictNode
  | .dict children _ => some children
  | _ => none

/-- `dynamic_cast<BListNode *>`. -/
def asList : BNode → Option (List BNode)
  | .list children _ => some children
  | _ => none

/-- `dynamic_cast<BValueNode *>`. -/
def asValue : BNode → Option Value
  | .value v _ => some v
  | _ => none

end BNode

/-- The tests that the typed getters of both classes make on the value. -/
def Value.int64OrThrow (missing : NodeError) : Option Value → Except NodeError ℤ
  | none => .error missing
  | some (.string _) => .error .incompatibleType
  | some v => .ok v.toInt64

/-- The same for the type `Value::INT` alone. -/
def Value.intOrThrow (missing : NodeError) : Option Value → Except NodeError ℤ
  | none => .error missing
  | some (.int ival) => .ok ival
  | some _ => .error .incompatibleType

/-- The same for the type `Value::STRING`. -/
def Value.stringOrThrow (missing : NodeError) : Option Value → Except NodeError (List UInt8)
  | none => .error missing
  | some (.string strval) => .ok strval
  | some _ => .error .incompatibleType

namespace BDictNode

variable (d : BDictNode) (key : List UInt8)

/-- `BDictNode::getData`: the first child with the key. -/
def getData : Option BNode := (d.find? fun e => e.1 == key).map Prod.snd

/-- `BDictNode::getDict`. -/
def getDict : Option BDictNode := (d.getData key).bind BNode.asDict

/-- `BDictNode::getList`. -/
def getList : Option (List BNode) := (d.getData key).bind BNode.asList

/-- `BDictNode::getValue`. -/
def getValue : Option Value := (d.getData key).bind BNode.asValue

/-- `BDictNode::getInt64`. -/
def getInt64 : Except NodeError ℤ := Value.int64OrThrow (.keyNotFound key) (d.getValue key)

/-- `BDictNode::getInt`. -/
def getInt : Except NodeError ℤ := Value.intOrThrow (.keyNotFound key) (d.getValue key)

/-- `BDictNode::getByteArrayView`, and `getString` before the conversion to text. -/
def getByteArrayView : Except NodeError (List UInt8) :=
  Value.stringOrThrow (.keyNotFound key) (d.getValue key)

end BDictNode

/-- `BListNode::getByteArrayView` of a child, and `getString` before the conversion to text. -/
def BNode.getByteArrayView (child : BNode) : Except NodeError (List UInt8) :=
  Value.stringOrThrow .childNotFound child.asValue

/-- `BListNode::getInt` of a child. -/
def BNode.getInt (child : BNode) : Except NodeError ℤ :=
  Value.intOrThrow .childNotFound child.asValue

end KTorrent
