import Binder.Tree.Basic

/-! What can be wrong with a module, and what can be wrong with the way the binder is driven. -/
namespace Binder

/-- A fault of the source. It is reported, and binding goes on. A type that is named in it has no text if
it would be spelled out for ever. -/
inductive Fault where
  | duplicateSymbol
  | symbolNotFound
  | memberNotFound
  | expectedType
  | expectedValue
  | expectedTypeLiteral
  | noMatchingSignature
  | notCallable
  | expectedTypeCode (code : String)
  | typeMismatch (expected found : Option String)
  | divideByZero
  | invalidArraySize
  | cannotExtend (type : Option String)
  | cannotInfer (value : String)
  | unresolvedType
  | unknownNode
  deriving DecidableEq, Repr

def Fault.message : Fault → Option String
  | .duplicateSymbol => some "Duplicate symbol"
  | .symbolNotFound => some "Symbol not found"
  | .memberNotFound => some "Member not found"
  | .expectedType => some "Expected a type"
  | .expectedValue => some "Expected a value"
  | .expectedTypeLiteral => some "Expected a type literal"
  | .noMatchingSignature => some "No matching signature"
  | .notCallable => some "Type is not callable"
  | .expectedTypeCode code => some ("Expected type " ++ code)
  | .typeMismatch expected found => do
      return "Type mismatch: expected " ++ (← expected) ++ ", found " ++ (← found)
  | .divideByZero => some "Divide by zero"
  | .invalidArraySize => some "Invalid array size"
  | .cannotExtend type => do return "Cannot extend type " ++ (← type)
  | .cannotInfer value => some ("Cannot infer type of " ++ value)
  | .unresolvedType => some "Unresolved type"
  | .unknownNode => some "Unknown node"

structure Diagnostic where
  span : Span
  fault : Fault
  deriving DecidableEq, Repr

namespace Diagnostic

def message (d : Diagnostic) : Option String := d.fault.message

def text (d : Diagnostic) : Option String := d.message.map (· ++ " at " ++ d.span.text)

end Diagnostic

/-- A broken rule of use. It ends the operation that breaks it. -/
inductive Misuse where
  | symbolRebound (symbol : Option String)
  | nodeRetyped (node : Tree.NodeId)
  | alreadyEntered
  | alreadyBuilt
  /-- Two types were compared that contain themselves and never differ. -/
  | endlessType
  deriving DecidableEq, Repr

def Misuse.message : Misuse → Option String
  | .symbolRebound symbol => symbol.map fun symbol => "type symbol `" ++ symbol ++ "` is already bound"
  | .nodeRetyped node => some ("node " ++ node.text ++ " already has a type")
  | .alreadyEntered => some "binding context is already entered"
  | .alreadyBuilt => some "binding context is already built"
  | .endlessType => some "type contains itself"

end Binder
