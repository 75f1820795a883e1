import Binder.Location
import Binder.Tree.Literal

/-! Syntax trees of a module. Every node carries a note: in a document the span that was written
with it, if any; in a numbered tree its number and its span. -/
namespace Binder.Tree

mutual

inductive Node (α : Type) where
  | literal (note : α) (value : Literal)
  | ident (note : α) (name : String)
  | selection (note : α) (target : Node α) (member : String)
  | call (note : α) (target : Node α) (arguments : List (Node α))
  | namedArgument (note : α) (name : String) (value : Node α)
  | sequence (note : α) (items : List (Node α))
  | definition (note : α) (mutable : Bool) (name : String) (ascription value : Option (Node α))
  | typeLiteral (note : α) (members : List (Member α))
  | arrayType (note : α) (element : Node α) (size : Option (Node α))
  | referenceType (note : α) (referent : Node α)
  | extension (note : α) (target : Node α) (members : List (Member α))

/-- A member of a type literal. -/
inductive Member (α : Type) where
  | field (name : String) (type : Node α) (mutable : Bool)
  | signature (parameters : List (Parameter α)) (result : Node α)
  | nested (name : String) (value : Node α)

inductive Parameter (α : Type) where
  | mk (name : String) (type : Node α) (fallback : Option (Node α))

end

/-- The number of a node, in the order in which the nodes of a tree are completed. -/
structure NodeId where
  index : Nat
  deriving DecidableEq, Repr, Inhabited

def NodeId.text (id : NodeId) : String := "#" ++ Nat.repr id.index

structure Mark where
  id : NodeId
  span : Span
  deriving DecidableEq, Repr, Inhabited

/-- A node of a numbered tree. -/
abbrev Expr := Node Mark

instance {α : Type} [Inhabited α] : Inhabited (Node α) := ⟨.literal default .null⟩

variable {α : Type}

def Node.note : Node α → α
  | .literal n _ | .ident n _ | .selection n _ _ | .call n _ _ | .namedArgument n _ _
  | .sequence n _ | .definition n _ _ _ _ | .typeLiteral n _ | .arrayType n _ _
  | .referenceType n _ | .extension n _ _ => n

namespace Parameter

def name : Parameter α → String
  | .mk name _ _ => name

def type : Parameter α → Node α
  | .mk _ type _ => type

def fallback : Parameter α → Option (Node α)
  | .mk _ _ fallback => fallback

/-- A parameter stands where its type stands. -/
def note (p : Parameter α) : α := p.type.note

end Parameter

/-- A member stands where its type, its result or its nested literal stands. -/
def Member.note : Member α → α
  | .field _ type _ => type.note
  | .signature _ result => result.note
  | .nested _ value => value.note

def Node.id (e : Expr) : NodeId := e.note.id

def Node.span (e : Expr) : Span := e.note.span

/-- The members of an immutable definition without ascription whose value is a type literal: such a
definition declares a type. -/
def Node.declaredMembers? : Node α → Option (List (Member α))
  | .definition _ false _ none (some (.typeLiteral _ members)) => some members
  | _ => none

def Node.argumentName? : Node α → Option String
  | .namedArgument _ name _ => some name
  | _ => none

/-- The kinds of node that a document can hold. -/
inductive Kind where
  | rune | boolean | byte | double | float | int | long | ulong | null | string | uint
  | name | selection | call | namedArgument | sequence | letDefinition | varDefinition
  | typeLiteral | arrayType | referenceType | extension
  deriving DecidableEq, Repr

namespace Kind

/-- All kinds, in the order of their numbers. -/
def all : List Kind :=
  [.rune, .boolean, .byte, .double, .float, .int, .long, .ulong, .null, .string, .uint, .name,
    .selection, .call, .namedArgument, .sequence, .letDefinition, .varDefinition, .typeLiteral,
    .arrayType, .referenceType, .extension]

def text : Kind → String
  | .rune => "rune"
  | .boolean => "boolean"
  | .byte => "byte"
  | .double => "double"
  | .float => "float"
  | .int => "int"
  | .long => "long"
  | .ulong => "ulong"
  | .null => "null"
  | .string => "string"
  | .uint => "uint"
  | .name => "name"
  | .selection => "selection"
  | .call => "call"
  | .namedArgument => "named_argument"
  | .sequence => "sequence"
  | .letDefinition => "let"
  | .varDefinition => "var"
  | .typeLiteral => "type_literal"
  | .arrayType => "array_type"
  | .referenceType => "reference_type"
  | .extension => "extension"

end Kind

def Literal.kind : Literal → Kind
  | .rune _ => .rune
  | .boolean _ => .boolean
  | .byte _ => .byte
  | .double _ => .double
  | .float _ => .float
  | .int _ => .int
  | .long _ => .long
  | .ulong _ => .ulong
  | .null => .null
  | .string _ => .string
  | .uint _ => .uint

def Node.kind : Node α → Kind
  | .literal _ value => value.kind
  | .ident .. => .name
  | .selection .. => .selection
  | .call .. => .call
  | .namedArgument .. => .namedArgument
  | .sequence .. => .sequence
  | .definition _ false _ _ _ => .letDefinition
  | .definition _ true _ _ _ => .varDefinition
  | .typeLiteral .. => .typeLiteral
  | .arrayType .. => .arrayType
  | .referenceType .. => .referenceType
  | .extension .. => .extension

end Binder.Tree
