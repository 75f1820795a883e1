import Binder.Document.Basic

/-! Numbering the nodes of a document. Each node is numbered after its children, and the bindings
become one sequence of pairs that nests to the right. -/
namespace Binder

inductive LoweringError where
  | emptyDocument
  | emptySequence (span : Span)
  deriving DecidableEq, Repr

def LoweringError.message : LoweringError → String
  | .emptyDocument => "document has no bindings"
  | .emptySequence span => "empty sequence at " ++ span.text

namespace Document

open Binder.Tree

/-- Computations that hand out node numbers. The numbers given before a failure stay given. -/
abbrev Numbering := EStateM LoweringError Nat

/-- The mark of the next node. -/
def mark (span : Span) : Numbering Mark := do
  let n ← get
  set (n + 1)
  return ⟨⟨n⟩, span⟩

/-- Chains one or more nodes into pairs that nest to the right. -/
def chain (first : Expr) : List Expr → Numbering Expr
  | [] => return first
  | second :: rest => do
      let right ← chain second rest
      let note ← mark .zero
      return .sequence note [first, right]

/-- A sequence of one item is just that item. -/
def group (span : Span) : List Expr → Numbering Expr
  | [] => throw (.emptySequence span)
  | [only] => return only
  | first :: second :: rest => do
      let right ← chain second rest
      let note ← mark span
      return .sequence note [first, right]

mutual

def lowerNode : Node (Option Span) → Numbering Expr
  | .literal span value => return .literal (← mark (span.getD .zero)) value
  | .ident span name => return .ident (← mark (span.getD .zero)) name
  | .selection span target member => do
      let target ← lowerNode target
      return .selection (← mark (span.getD .zero)) target member
  | .call span target arguments => do
      let target ← lowerNode target
      let arguments ← lowerNodes arguments
      return .call (← mark (span.getD .zero)) target arguments
  | .namedArgument span name value => do
      let value ← lowerNode value
      return .namedArgument (← mark (span.getD .zero)) name value
  | .sequence span items => do
      let items ← lowerNodes items
      group (span.getD .zero) items
  | .definition span mutable name ascription value => do
      let ascription ← lowerOption ascription
      let value ← lowerOption value
      return .definition (← mark (span.getD .zero)) mutable name ascription value
  | .typeLiteral span members => do
      let members ← lowerMembers members
      return .typeLiteral (← mark (span.getD .zero)) members
  | .arrayType span element size => do
      let element ← lowerNode element
      let size ← lowerOption size
      return .arrayType (← mark (span.getD .zero)) element size
  | .referenceType span referent => do
      let referent ← lowerNode referent
      return .referenceType (← mark (span.getD .zero)) referent
  | .extension span target members => do
      let target ← lowerNode target
      let members ← lowerMembers members
      return .extension (← mark (span.getD .zero)) target members

def lowerNodes : List (Node (Option Span)) → Numbering (List Expr)
  | [] => return []
  | node :: rest => do
      let node ← lowerNode node
      return node :: (← lowerNodes rest)

def lowerOption : Option (Node (Option Span)) → Numbering (Option Expr)
  | none => return none
  | some node => return some (← lowerNode node)

def lowerMember : Member (Option Span) → Numbering (Member Mark)
  | .field name type mutable => return .field name (← lowerNode type) mutable
  | .signature parameters result => do
      let parameters ← lowerParameters parameters
      return .signature parameters (← lowerNode result)
  | .nested name value => return .nested name (← lowerNode value)

def lowerMembers : List (Member (Option Span)) → Numbering (List (Member Mark))
  | [] => return []
  | member :: rest => do
      let member ← lowerMember member
      return member :: (← lowerMembers rest)

def lowerParameter : Parameter (Option Span) → Numbering (Parameter Mark)
  | .mk name type fallback => do
      let type ← lowerNode type
      return .mk name type (← lowerOption fallback)

def lowerParameters : List (Parameter (Option Span)) → Numbering (List (Parameter Mark))
  | [] => return []
  | parameter :: rest => do
      let parameter ← lowerParameter parameter
      return parameter :: (← lowerParameters rest)

end

/-- The numbered tree of a document. -/
def lower (d : Document) : Numbering Expr := do
  match ← lowerNodes d.bindings with
  | [] => throw .emptyDocument
  | first :: rest => chain first rest

end Document
end Binder
