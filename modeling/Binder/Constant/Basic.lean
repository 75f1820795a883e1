import Binder.Tree.Literal

/-! Constants: the values that constant expressions fold to, and the codes of their types. -/
namespace Binder

/-- The code of a constant's type. The last two are the codes of a failed fold and of an
expression that is not constant. -/
inductive TypeCode where
  | boolean | byte | double | float | int | long | null | rune | string | uint | error | notConst
  deriving DecidableEq, Repr

namespace TypeCode

def all : List TypeCode :=
  [.boolean, .byte, .double, .float, .int, .long, .null, .rune, .string, .uint, .error, .notConst]

def text : TypeCode → String
  | .boolean => "Boolean"
  | .byte => "Byte"
  | .double => "Double"
  | .float => "Float"
  | .int => "Int"
  | .long => "Long"
  | .null => "Null"
  | .rune => "Rune"
  | .string => "String"
  | .uint => "UInt"
  | .error => "Error"
  | .notConst => "NotConst"

end TypeCode

inductive Value where
  | boolean (value : Bool)
  | byte (value : UInt8)
  | double (value : Float)
  | float (value : Float32)
  | int (value : Int32)
  | long (value : Int64)
  | null
  | rune (value : Char)
  | string (value : String)
  | uint (value : UInt32)
  deriving DecidableEq, Repr

namespace Value

def code : Value → TypeCode
  | .boolean _ => .boolean
  | .byte _ => .byte
  | .double _ => .double
  | .float _ => .float
  | .int _ => .int
  | .long _ => .long
  | .null => .null
  | .rune _ => .rune
  | .string _ => .string
  | .uint _ => .uint

def text : Value → String
  | .boolean b => Text.boolean b
  | .byte b => Nat.repr b.toNat
  | .double x => Text.double x
  | .float x => Text.single x
  | .int i => Text.integer i.toInt
  | .long l => Text.integer l.toInt
  | .null => "null"
  | .rune c => Text.quotedRune c
  | .string s => Text.quotedString s
  | .uint u => Nat.repr u.toNat

/-- The value of a literal. There are no constants of type `ULong`. -/
def ofLiteral? : Tree.Literal → Option Value
  | .rune c => some (.rune c)
  | .boolean b => some (.boolean b)
  | .byte b => some (.byte b)
  | .double x => some (.double x)
  | .float x => some (.float x)
  | .int i => some (.int i)
  | .long l => some (.long l)
  | .null => some .null
  | .string s => some (.string s)
  | .uint u => some (.uint u)
  | .ulong _ => none

end Value

/-- The zero value of a type code, for the codes of types. -/
def TypeCode.zero? : TypeCode → Option Value
  | .boolean => some (.boolean false)
  | .byte => some (.byte 0)
  | .double => some (.double 0)
  | .float => some (.float 0)
  | .int => some (.int 0)
  | .long => some (.long 0)
  | .null => some .null
  | .rune => some (.rune '\x00')
  | .string => some (.string "")
  | .uint => some (.uint 0)
  | .error | .notConst => none

/-- What an expression folds to. A failed fold keeps the zero value of the type that was expected. -/
inductive Constant where
  | known (value : Value)
  | failed (zero : Option Value)
  | notConst
  deriving DecidableEq, Repr

namespace Constant

def ofValue? : Option Value → Constant
  | some v => .known v
  | none => .notConst

def code : Constant → TypeCode
  | .known v => v.code
  | .failed _ => .error
  | .notConst => .notConst

def value? : Constant → Option Value
  | .known v => some v
  | .failed zero => zero
  | .notConst => none

def isConst : Constant → Bool
  | .known _ => true
  | .failed _ | .notConst => false

def text : Constant → String
  | .known v => v.text
  | .failed _ => "<error>"
  | .notConst => "<not const>"

end Constant
end Binder
