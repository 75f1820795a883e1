import Binder.Constant.Basic
import Binder.TypeGraph.Basic

/-! What every module sees: the builtin types, the primitive operators with their overloads, and
the error type that stands for whatever could not be resolved. -/
namespace Binder

inductive Builtin where
  | boolean | byte | double | float | int | long | null | rune | string | uint | ulong
  deriving DecidableEq, Repr

namespace Builtin

/-- The builtin types in the order of their symbols. -/
def all : List Builtin :=
  [.boolean, .byte, .double, .float, .int, .long, .null, .rune, .string, .uint, .ulong]

def name : Builtin → String
  | .boolean => "Boolean"
  | .byte => "Byte"
  | .double => "Double"
  | .float => "Float"
  | .int => "Int"
  | .long => "Long"
  | .null => "Null"
  | .rune => "Rune"
  | .string => "String"
  | .uint => "UInt"
  | .ulong => "ULong"

def symbol : Builtin → SymbolId
  | .boolean => ⟨0⟩
  | .byte => ⟨1⟩
  | .double => ⟨2⟩
  | .float => ⟨3⟩
  | .int => ⟨4⟩
  | .long => ⟨5⟩
  | .null => ⟨6⟩
  | .rune => ⟨7⟩
  | .string => ⟨8⟩
  | .uint => ⟨9⟩
  | .ulong => ⟨10⟩

def ofLiteral : Tree.Literal → Builtin
  | .rune _ => .rune
  | .boolean _ => .boolean
  | .byte _ => .byte
  | .double _ => .double
  | .float _ => .float
  | .int _ => .int
  | .long _ => .long
  | .ulong _ => .ulong
  | .null => .null
  | .string _ => .string
  | .uint _ => .uint

def ofCode? : TypeCode → Option Builtin
  | .boolean => some .boolean
  | .byte => some .byte
  | .double => some .double
  | .float => some .float
  | .int => some .int
  | .long => some .long
  | .null => some .null
  | .rune => some .rune
  | .string => some .string
  | .uint => some .uint
  | .error | .notConst => none

def integral : List Builtin := [.byte, .int, .uint, .long, .ulong]

def numeric : List Builtin := integral ++ [.float, .double]

def equatable : List Builtin := numeric ++ [.string, .boolean, .rune]

end Builtin

namespace Prelude

def unary (operand result : Builtin) : Signature where
  receiver := none
  parameters := [{ name := "operand", type := operand.symbol }]
  result := result.symbol

def binary (operand result : Builtin) : Signature where
  receiver := none
  parameters := [{ name := "left", type := operand.symbol },
    { name := "right", type := operand.symbol }]
  result := result.symbol

/-- The primitive operators with their overloads, in the order of their symbols. -/
def operators : List (String × List Signature) :=
  let arithmetic := Builtin.numeric.map fun b => binary b b
  let signed := arithmetic ++ Builtin.numeric.map fun b => unary b b
  let bitwise := Builtin.integral.map fun b => binary b b
  let ordering := (Builtin.numeric ++ [Builtin.string]).map fun b => binary b .boolean
  let equality := Builtin.equatable.map fun b => binary b .boolean
  let logical := [binary .boolean .boolean]
  [("+", signed ++ [binary .string .string]), ("-", signed), ("*", arithmetic), ("/", arithmetic),
    ("%", bitwise), ("&", bitwise), ("|", bitwise), ("^", bitwise), ("<", ordering),
    (">", ordering), ("<=", ordering), (">=", ordering), ("==", equality), ("!=", equality),
    ("!", [unary .boolean .boolean]), ("and", logical), ("or", logical)]

/-- The symbol of the first operator. -/
def firstOperator : Nat := Builtin.all.length

/-- The symbol of the error type. -/
def error : SymbolId := ⟨28⟩

/-- Name, kind and overloads of every type of the prelude. -/
def entries : List (String × TypeKind × List Signature) :=
  Builtin.all.map (fun b => (b.name, .record, [])) ++
    operators.map (fun op => ("", .record, op.2)) ++ [("Error", .error, [])]

/-- Every symbol of the prelude is bound to the type of the same number. -/
def graph : TypeGraph where
  symbols := (entries.zipIdx.map fun (e, i) => ⟨e.1, some ⟨i⟩⟩).toArray
  types := (entries.zipIdx.map fun (e, i) =>
    { symbol := ⟨i⟩, kind := e.2.1, signatures := e.2.2 }).toArray

def declarations : List Declaration :=
  Builtin.all.map (fun b => .type ⟨b.name, b.symbol⟩) ++
    operators.zipIdx.map fun (op, i) => .value ⟨op.1, ⟨firstOperator + i⟩, .value⟩

def scope : Scope Declaration := .ofList declarations

def literalType (l : Tree.Literal) : SymbolId := (Builtin.ofLiteral l).symbol

/-- The builtin type of a constant; the error type for the codes without one. -/
def codeType (c : TypeCode) : SymbolId := ((Builtin.ofCode? c).map Builtin.symbol).getD error

end Prelude
end Binder
