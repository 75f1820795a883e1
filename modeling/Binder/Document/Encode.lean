import Binder.Document.Basic
import Binder.Json.Writer

/-! Writing a document as JSON: the kind first, then the fields of the kind, then the span if one
was given. Absent optional nodes are left out; lists and flags are always written. -/
namespace Binder.Document

open Binder.Tree

/-- Binary64 numbers are written positionally from `10 ^ -5` up to `10 ^ 16`. -/
def doubleLayout : Decimal.Layout := ⟨-5, 16, "+", .even⟩

/-- Binary32 numbers are written positionally from `10 ^ -6` up to `10 ^ 13`. -/
def singleLayout : Decimal.Layout := ⟨-6, 13, "+", .even⟩

/-- A value that is not finite has no numeral and is written as `null`. -/
def encodeFinite (text : Option String) : Json :=
  match text with
  | some text => .number text
  | none => .null

def encodePosition (p : Position) : Json :=
  .object [("line", .nat p.line.toNat), ("character", .nat p.character.toNat)]

def encodeSpan (s : Span) : Json :=
  .object [("length", .nat s.length.toNat), ("start", encodePosition s.start),
    ("end", encodePosition s.stop)]

def encodeLiteral : Literal → List (String × Json)
  | .rune c => [("value", .string c.toString)]
  | .boolean b => [("value", .boolean b)]
  | .byte b => [("value", .nat b.toNat)]
  | .double x =>
      [("value", encodeFinite (doubleLayout.finite? Decimal.binary64 x.toBits.toNat))]
  | .float x =>
      [("value", encodeFinite (singleLayout.finite? Decimal.binary32 x.toBits.toNat))]
  | .int i => [("value", .int i.toInt)]
  | .long l => [("value", .int l.toInt)]
  | .ulong l => [("value", .nat l.toNat)]
  | .null => []
  | .string s => [("value", .string s)]
  | .uint u => [("value", .nat u.toNat)]

def encodeRange (span : Option Span) : List (String × Json) :=
  match span with
  | none => []
  | some s => [("range", encodeSpan s)]

/-- An object that names its kind, holds the fields of the kind and perhaps a span. -/
def encodeKind (kind : Kind) (fields : List (String × Json)) (span : Option Span) : Json :=
  .object (("kind", .string kind.text) :: fields ++ encodeRange span)

mutual

def encodeNode : Node (Option Span) → Json
  | .literal span value => encodeKind value.kind (encodeLiteral value) span
  | .ident span name => encodeKind .name [("name", .string name)] span
  | .selection span target member =>
      encodeKind .selection [("target", encodeNode target), ("member", .string member)] span
  | .call span target arguments =>
      encodeKind .call
        [("target", encodeNode target), ("arguments", .list (encodeNodes arguments))] span
  | .namedArgument span name value =>
      encodeKind .namedArgument [("name", .string name), ("value", encodeNode value)] span
  | .sequence span items => encodeKind .sequence [("items", .list (encodeNodes items))] span
  | .definition span mutable name ascription value =>
      encodeKind (if mutable then .varDefinition else .letDefinition)
        (("name", .string name) :: encodeOption "type" ascription ++ encodeOption "value" value)
        span
  | .typeLiteral span members =>
      encodeKind .typeLiteral [("members", .list (encodeMembers members))] span
  | .arrayType span element size =>
      encodeKind .arrayType (("element", encodeNode element) :: encodeOption "size" size) span
  | .referenceType span referent =>
      encodeKind .referenceType [("referant", encodeNode referent)] span
  | .extension span target members =>
      encodeKind .extension
        [("target", encodeNode target), ("members", .list (encodeMembers members))] span

def encodeNodes : List (Node (Option Span)) → List Json
  | [] => []
  | node :: rest => encodeNode node :: encodeNodes rest

def encodeOption (name : String) : Option (Node (Option Span)) → List (String × Json)
  | none => []
  | some node => [(name, encodeNode node)]

def encodeMember : Member (Option Span) → Json
  | .field name type mutable =>
      .object [("kind", .string "field"), ("name", .string name), ("type", encodeNode type),
        ("mutable", .boolean mutable)]
  | .signature parameters result =>
      .object [("kind", .string "signature"), ("parameters", .list (encodeParameters parameters)),
        ("result", encodeNode result)]
  | .nested name value =>
      .object [("kind", .string "let"), ("name", .string name), ("value", encodeNode value)]

def encodeMembers : List (Member (Option Span)) → List Json
  | [] => []
  | member :: rest => encodeMember member :: encodeMembers rest

def encodeParameter : Parameter (Option Span) → Json
  | .mk name type fallback =>
      .object (("name", .string name) :: ("type", encodeNode type) ::
        encodeOption "default" fallback)

def encodeParameters : List (Parameter (Option Span)) → List Json
  | [] => []
  | parameter :: rest => encodeParameter parameter :: encodeParameters rest

end

def encode (d : Document) : Json := .object [("bindings", .list (encodeNodes d.bindings))]

/-- The text of a document. -/
def write (d : Document) : String := d.encode.compact

end Binder.Document
