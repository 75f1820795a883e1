import Binder.Document.Basic
import Binder.Json.Fields
import Binder.Json.Reader

/-! Reading a document from JSON. Unknown fields are ignored and the order of fields is free, but a
known field must not be repeated. Members, parameters, spans and positions may also be written as
lists of their fields. -/
namespace Binder.Document

open Binder.Tree Json

def integer? (v : Json) : Option Int := v.numeral?.bind Numeral.integer?

def real? (v : Json) : Option Float := v.numeral?.bind Numeral.real?

/-- An integer from `low` up to, and without, `high`. -/
def between? (low high : Int) (v : Json) : Option Int :=
  (integer? v).bind fun i => if low ≤ i ∧ i < high then some i else none

def uint32? (v : Json) : Option UInt32 := (between? 0 (Nat.pow 2 32) v).map fun i => .ofNat i.toNat

/-- An integer is rounded to binary32 at once, any other number by way of binary64. -/
def single? (v : Json) : Option Float32 :=
  match integer? v with
  | some i =>
      let size := (UInt64.ofNat i.natAbs).toFloat32
      some (if i < 0 then -size else size)
  | none => (real? v).map Float.toFloat32

def rune? : Json → Option Char
  | .string s =>
      match s.toList with
      | [c] => some c
      | _ => none
  | _ => none

def position? : Json → Option Position
  | .object fields => do
      let line ← required fields "line" fun v _ => uint32? v
      let character ← required fields "character" fun v _ => uint32? v
      return ⟨line, character⟩
  | .list [line, character] => do return ⟨← uint32? line, ← uint32? character⟩
  | _ => none

def span? : Json → Option Span
  | .object fields => do
      let length ← defaulted fields "length" 0 fun v _ => uint32? v
      let start ← required fields "start" fun v _ => position? v
      let stop ← required fields "end" fun v _ => position? v
      return ⟨length, start, stop⟩
  | .list [length, start, stop] => do
      return ⟨← uint32? length, ← position? start, ← position? stop⟩
  | _ => none

/-- One of the given names, written out or as its place in the list. -/
def choice? (names : List String) : Json → Option String
  | .string s => names.find? (· = s)
  | .number text => do
      let i ← integer? (.number text)
      if 0 ≤ i then names[i.toNat]? else none
  | _ => none

def kind? (v : Json) : Option Kind :=
  (choice? (Kind.all.map Kind.text) v).bind fun s => Kind.all.find? fun k => k.text = s

/-- The literal of a kind; `none` for the kinds that are no literals. -/
def literal? (kind : Kind) (fields : List (String × Json)) : Option Literal :=
  let value {β : Type} (read : Json → Option β) : Option β :=
    required fields "value" fun v _ => read v
  match kind with
  | .rune => (value rune?).map .rune
  | .boolean => (value boolean?).map .boolean
  | .byte => (value (between? 0 (Nat.pow 2 8))).map fun i => .byte (.ofNat i.toNat)
  | .double => (value real?).map .double
  | .float => (value single?).map .float
  | .int => (value (between? (-Nat.pow 2 31) (Nat.pow 2 31))).map fun i => .int (.ofInt i)
  | .long => (value (between? (-Nat.pow 2 63) (Nat.pow 2 63))).map fun i => .long (.ofInt i)
  | .ulong => (value (between? 0 (Nat.pow 2 64))).map fun i => .ulong (.ofNat i.toNat)
  | .null => some .null
  | .string => (value string?).map .string
  | .uint => (value uint32?).map .uint
  | _ => none

/-- The kinds of member of a type literal. -/
def memberKinds : List String := ["field", "signature", "let"]

mutual

def node? : Json → Option (Node (Option Span))
  | .object fields => do
      let kind ← required fields "kind" fun v _ => kind? v
      let span ← optional fields "range" fun v _ => span? v
      match kind with
      | .name =>
          let name ← required fields "name" fun v _ => string? v
          return .ident span name
      | .selection =>
          let target ← required fields "target" fun v _ => node? v
          let member ← required fields "member" fun v _ => string? v
          return .selection span target member
      | .call =>
          let target ← required fields "target" fun v _ => node? v
          let arguments ← defaulted fields "arguments" [] fun v _ => items? v fun w _ => node? w
          return .call span target arguments
      | .namedArgument =>
          let name ← required fields "name" fun v _ => string? v
          let value ← required fields "value" fun v _ => node? v
          return .namedArgument span name value
      | .sequence =>
          let items ← required fields "items" fun v _ => items? v fun w _ => node? w
          return .sequence span items
      | .letDefinition | .varDefinition =>
          let name ← required fields "name" fun v _ => string? v
          let ascription ← optional fields "type" fun v _ => node? v
          let value ← optional fields "value" fun v _ => node? v
          return .definition span (kind = .varDefinition) name ascription value
      | .typeLiteral =>
          let members ← defaulted fields "members" [] fun v _ => items? v fun w _ => member? w
          return .typeLiteral span members
      | .arrayType =>
          let element ← required fields "element" fun v _ => node? v
          let size ← optional fields "size" fun v _ => node? v
          return .arrayType span element size
      | .referenceType =>
          let referent ← required fields "referant" fun v _ => node? v
          return .referenceType span referent
      | .extension =>
          let target ← required fields "target" fun v _ => node? v
          let members ← defaulted fields "members" [] fun v _ => items? v fun w _ => member? w
          return .extension span target members
      | _ =>
          let value ← literal? kind fields
          return .literal span value
  | _ => none
termination_by v => sizeOf v

def member? : Json → Option (Member (Option Span))
  | .object fields => do
      let kind ← required fields "kind" fun v _ => choice? memberKinds v
      if kind = "field" then
        let name ← required fields "name" fun v _ => string? v
        let type ← required fields "type" fun v _ => node? v
        let mutable ← defaulted fields "mutable" false fun v _ => boolean? v
        return .field name type mutable
      else if kind = "signature" then
        let parameters ←
          defaulted fields "parameters" [] fun v _ => items? v fun w _ => parameter? w
        let result ← required fields "result" fun v _ => node? v
        return .signature parameters result
      else
        let name ← required fields "name" fun v _ => string? v
        let value ← required fields "value" fun v _ => node? v
        return .nested name value
  | .list [kind, first, second] => do
      let kind ← choice? memberKinds kind
      if kind = "field" then
        return .field (← string? first) (← node? second) false
      else if kind = "signature" then
        let parameters ← items? first fun w _ => parameter? w
        return .signature parameters (← node? second)
      else
        return .nested (← string? first) (← node? second)
  | .list [kind, first, second, third] => do
      let kind ← choice? memberKinds kind
      if kind = "field" then
        return .field (← string? first) (← node? second) (← boolean? third)
      else none
  | _ => none
termination_by v => sizeOf v

def parameter? : Json → Option (Parameter (Option Span))
  | .object fields => do
      let name ← required fields "name" fun v _ => string? v
      let type ← required fields "type" fun v _ => node? v
      let fallback ← optional fields "default" fun v _ => node? v
      return .mk name type fallback
  | .list [name, type] => do return .mk (← string? name) (← node? type) none
  | .list [name, type, fallback] => do
      let name ← string? name
      let type ← node? type
      let fallback ← nullable fallback (node? fallback)
      return .mk name type fallback
  | _ => none
termination_by v => sizeOf v

end

/-- At most this many lists and objects stand inside each other in what is read of a document. -/
def nesting : Nat := 127

/-- Whether a field of a top-level binding can be read at all, whether or not the binding has a use
for it. The span alone is read field by field, without a look at what is not needed. The lists and
objects around the field are the document, its bindings and the binding. -/
def isReadable (field : String × Json) : Bool :=
  field.1 = "range" || field.2.isSound && field.2.depth + 3 ≤ nesting

def binding? : Json → Option (Node (Option Span))
  | .object fields => if fields.all isReadable then node? (.object fields) else none
  | _ => none

/-- Fields of the document itself that are not needed are passed over, whatever they hold. -/
def decode? : Json → Option Document
  | .object fields => do
      let bindings ← defaulted fields "bindings" [] fun v _ => items? v fun w _ => binding? w
      return ⟨bindings⟩
  | .list [] => some ⟨[]⟩
  | .list [bindings] => do return ⟨← items? bindings fun w _ => binding? w⟩
  | _ => none

/-- The document of a text. -/
def read? (text : String) : Option Document := (Json.parse? text).bind decode?

end Binder.Document
