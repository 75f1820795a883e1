import Binder.Text.Quoted
import Binder.Text.Scalar

/-! Literals and the way they are shown in a tree: with a suffix for every numeric type other than
`Int` and `Double`. -/
namespace Binder.Tree

inductive Literal where
  | rune (value : Char)
  | boolean (value : Bool)
  | byte (value : UInt8)
  | double (value : Float)
  | float (value : Float32)
  | int (value : Int32)
  | long (value : Int64)
  | ulong (value : UInt64)
  | null
  | string (value : String)
  | uint (value : UInt32)
  deriving DecidableEq, Repr

def Literal.text : Literal → String
  | .rune c => "'" ++ c.toString ++ "'"
  | .boolean b => Text.boolean b
  | .byte b => Nat.repr b.toNat ++ "b"
  | .double x => Text.double x
  | .float x => Text.single x ++ "f"
  | .int i => Text.integer i.toInt
  | .long l => Text.integer l.toInt ++ "l"
  | .ulong l => Nat.repr l.toNat ++ "ul"
  | .null => "null"
  | .string s => Text.quotedString s
  | .uint u => Nat.repr u.toNat ++ "u"

end Binder.Tree
