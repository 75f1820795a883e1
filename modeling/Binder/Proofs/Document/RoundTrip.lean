import Binder.Document.Decode
import Binder.Document.Encode
import Binder.Proofs.Json.Integer
import Binder.Proofs.Json.Text
import Binder.Tree.Walk

/-! Documents that are read back. Whatever is written of a document without literals of floating point
is read as the same document, as long as lists and objects do not stand inside each other more deeply
than a reader follows them. -/
namespace Binder

open Binder.Tree Json

/-- A literal that is written digit by digit. -/
def Tree.Literal.isExact : Literal → Bool
  | .double _ | .float _ => false
  | _ => true

def Tree.Node.isExact {α : Type} : Node α → Bool
  | .literal _ value => value.isExact
  | _ => true

namespace Document

variable {fields : List (String × Json)} {kind : Kind} {span : Option Span} {name : String}
  {low high : Int} {xs : List (Node (Option Span))} {node : Option (Node (Option Span))}
  {field : String × Json}

/-! Integers -/

theorem between?_nat {n : Nat} (hlow : low ≤ n := by omega)
    (hhigh : n < high := by rw [Nat.pow_eq]; omega) (h : n < Nat.pow 2 64 := by rw [Nat.pow_eq]; omega) :
    between? low high (.nat n) = some (n : Int) := by
  rw [between?, integer?, integer?_nat h, Option.bind_some, if_pos ⟨hlow, hhigh⟩]

theorem between?_int {i : Int} (hlow : low ≤ i := by rw [Nat.pow_eq]; omega)
    (hhigh : i < high := by rw [Nat.pow_eq]; omega)
    (hmin : -(Nat.pow 2 63 : Int) ≤ i := by rw [Nat.pow_eq]; omega)
    (hmax : i < Nat.pow 2 64 := by rw [Nat.pow_eq]; omega) :
    between? low high (.int i) = some i := by
  rw [between?, integer?, integer?_int hmin hmax, Option.bind_some, if_pos ⟨hlow, hhigh⟩]

theorem uint32?_nat (u : UInt32) : uint32? (.nat u.toNat) = some u := by
  have hlt : u.toNat < 2 ^ 32 := u.toNat_lt
  rw [uint32?, between?_nat, Option.map_some, Int.toNat_natCast, UInt32.ofNat_toNat]

/-! Spans -/

theorem position?_encodePosition (p : Position) : position? (encodePosition p) = some p := by
  rw [encodePosition, position?, required_of_named (.nat p.line.toNat) (by simp),
    required_of_named (.nat p.character.toNat) (by simp), uint32?_nat,
    uint32?_nat]
  rfl

theorem span?_encodeSpan (s : Span) : span? (encodeSpan s) = some s := by
  rw [encodeSpan, span?, defaulted_of_named (.nat s.length.toNat) (by simp),
    required_of_named (encodePosition s.start) (by simp),
    required_of_named (encodePosition s.stop) (by simp), uint32?_nat,
    position?_encodePosition, position?_encodePosition]
  rfl

/-! The fields that all nodes have -/

theorem kind?_text (kind : Kind) : kind? (.string kind.text) = some kind := by
  cases kind <;> decide

theorem named_encodeRange (h : name ≠ "range") (span : Option Span) :
    named name (encodeRange span) = [] := by
  cases span with
  | none => rfl
  | some s => simp [encodeRange, Ne.symm h]

/-- The fields of a kind, which leave the names of the kind and of the span alone. -/
structure Own (fields : List (String × Json)) : Prop where
  kind : named "kind" fields = []
  range : named "range" fields = []

theorem required_kind (kind : Kind) (span : Option Span) (h : Own fields := by constructor <;> simp) :
    required (("kind", .string kind.text) :: fields ++ encodeRange span) "kind"
      (fun v _ => kind? v) = some kind := by
  rw [required_of_named (.string kind.text), kind?_text]
  simp [h.kind, named_encodeRange]

theorem optional_range (kind : Kind) (span : Option Span) (h : Own fields := by constructor <;> simp) :
    optional (("kind", .string kind.text) :: fields ++ encodeRange span) "range"
      (fun v _ => span? v) = some span := by
  cases span with
  | none =>
    apply optional_of_missing
    simp [h.range, encodeRange]
  | some s =>
    rw [optional_of_named (encodeSpan s), span?_encodeSpan]
    · rfl
    · simp [h.range, encodeRange]
    · simp [encodeSpan]

theorem named_kind (hkind : name ≠ "kind") (hrange : name ≠ "range") (kind : Kind)
    (fields : List (String × Json)) (span : Option Span) :
    named name (("kind", .string kind.text) :: fields ++ encodeRange span) = named name fields := by
  simp [named_encodeRange hrange, Ne.symm hkind]

section Fields

variable {β : Type} {read : Json → Option β} (name : String) (v : Json)

theorem required_own (h : named name fields = [(name, v)] := by simp)
    (hkind : name ≠ "kind" := by decide) (hrange : name ≠ "range" := by decide) :
    required (("kind", .string kind.text) :: fields ++ encodeRange span) name (fun v _ => read v) =
      read v :=
  required_of_named v (by rw [named_kind hkind hrange, h])

theorem defaulted_own (value : β) (h : named name fields = [(name, v)] := by simp)
    (hkind : name ≠ "kind" := by decide) (hrange : name ≠ "range" := by decide) :
    defaulted (("kind", .string kind.text) :: fields ++ encodeRange span) name value
      (fun v _ => read v) = read v :=
  defaulted_of_named v (by rw [named_kind hkind hrange, h]) value

end Fields

/-! Literals -/

theorem own_encodeLiteral (value : Literal) : Own (encodeLiteral value) := by
  cases value <;> exact ⟨by simp [encodeLiteral], by simp [encodeLiteral]⟩

theorem value_of_literal {β : Type} (v : Json) (kind : Kind) (span : Option Span)
    (read : Json → Option β) :
    required (("kind", .string kind.text) :: [("value", v)] ++ encodeRange span) "value"
      (fun v _ => read v) = read v :=
  required_own "value" v

theorem literal?_encodeLiteral (value : Literal) (h : value.isExact = true) (span : Option Span) :
    literal? value.kind (("kind", .string value.kind.text) :: encodeLiteral value ++ encodeRange span) =
      some value := by
  cases value with
  | rune c =>
    show (required _ "value" fun v _ => rune? v).map Literal.rune = _
    rw [encodeLiteral, value_of_literal, rune?, Char.toString, String.toList_singleton]
    rfl
  | boolean b =>
    show (required _ "value" fun v _ => boolean? v).map Literal.boolean = _
    rw [encodeLiteral, value_of_literal]
    rfl
  | byte b =>
    have hlt : b.toNat < 2 ^ 8 := b.toNat_lt
    show (required _ "value" fun v _ => between? 0 (Nat.pow 2 8) v).map
      (fun i => Literal.byte (.ofNat i.toNat)) = _
    rw [encodeLiteral, value_of_literal, between?_nat, Option.map_some, Int.toNat_natCast,
      UInt8.ofNat_toNat]
  | double | float => cases h
  | int i =>
    have hlow := i.le_toInt
    have hhigh := i.toInt_lt
    show (required _ "value" fun v _ => between? (-Nat.pow 2 31) (Nat.pow 2 31) v).map
      (fun i => Literal.int (.ofInt i)) = _
    rw [encodeLiteral, value_of_literal, between?_int, Option.map_some, Int32.ofInt_toInt]
  | long l =>
    have hlow := l.le_toInt
    have hhigh := l.toInt_lt
    show (required _ "value" fun v _ => between? (-Nat.pow 2 63) (Nat.pow 2 63) v).map
      (fun i => Literal.long (.ofInt i)) = _
    rw [encodeLiteral, value_of_literal, between?_int, Option.map_some, Int64.ofInt_toInt]
  | ulong l =>
    have hlt : l.toNat < 2 ^ 64 := l.toNat_lt
    show (required _ "value" fun v _ => between? 0 (Nat.pow 2 64) v).map
      (fun i => Literal.ulong (.ofNat i.toNat)) = _
    rw [encodeLiteral, value_of_literal, between?_nat, Option.map_some, Int.toNat_natCast,
      UInt64.ofNat_toNat]
  | null => rfl
  | string s =>
    show (required _ "value" fun v _ => string? v).map Literal.string = _
    rw [encodeLiteral, value_of_literal]
    rfl
  | uint u =>
    show (required _ "value" fun v _ => uint32? v).map Literal.uint = _
    rw [encodeLiteral, value_of_literal, uint32?_nat]
    rfl

/-! Nodes -/

theorem encodeNode_ne_null (node : Node (Option Span)) : encodeNode node ≠ .null := by
  cases node <;> rw [encodeNode, encodeKind] <;> exact Json.noConfusion

@[simp] theorem named_encodeOption_self (name : String) (node : Option (Node (Option Span))) :
    named name (encodeOption name node) = encodeOption name node := by
  cases node <;> simp [encodeOption]

theorem named_encodeOption {other : String} (h : name ≠ other) (node : Option (Node (Option Span))) :
    named name (encodeOption other node) = [] := by
  cases node with
  | none => rfl
  | some n => simp [encodeOption, Ne.symm h]

def Exact (nodes : List (Node (Option Span))) : Prop := ∀ x ∈ nodes, x.isExact = true

theorem exact_cons {x : Node (Option Span)} :
    Exact (x :: xs) ↔ x.isExact = true ∧ Exact xs := List.forall_mem_cons

theorem exact_append {ys : List (Node (Option Span))} : Exact (xs ++ ys) ↔ Exact xs ∧ Exact ys :=
  List.forall_mem_append

theorem allFieldsSound_append (l r : List (String × Json)) :
    allFieldsSound (l ++ r) = (allFieldsSound l && allFieldsSound r) := by
  induction l with
  | nil => rfl
  | cons field l ih => rw [List.cons_append, allFieldsSound, allFieldsSound, ih, Bool.and_assoc]

theorem isSound_uint32 (u : UInt32) : (Json.nat u.toNat).isSound = true := by
  have hlt : u.toNat < 2 ^ 32 := u.toNat_lt
  exact isSound_nat (by rw [Nat.pow_eq]; omega)

theorem isSound_encodeSpan (s : Span) : (encodeSpan s).isSound = true := by
  simp only [encodeSpan, encodePosition, isSound, allFieldsSound, isSound_uint32, Bool.and_true]

theorem isSound_encodeKind (h : allFieldsSound fields = true) (kind : Kind) (span : Option Span) :
    (encodeKind kind fields span).isSound = true := by
  have hrange : allFieldsSound (encodeRange span) = true := by
    cases span with
    | none => rfl
    | some s => rw [encodeRange, allFieldsSound, isSound_encodeSpan]; rfl
  rw [encodeKind, isSound, List.cons_append, allFieldsSound, allFieldsSound_append, h, hrange, isSound]
  rfl

theorem allFieldsSound_encodeLiteral (value : Literal) (h : value.isExact = true) :
    allFieldsSound (encodeLiteral value) = true := by
  cases value with
  | rune | boolean | null | string => rfl
  | byte b =>
    have hlt : b.toNat < 2 ^ 8 := b.toNat_lt
    rw [encodeLiteral, allFieldsSound, isSound_nat (by rw [Nat.pow_eq]; omega)]
    rfl
  | double | float => cases h
  | int i =>
    have hlow := i.le_toInt
    have hhigh := i.toInt_lt
    rw [encodeLiteral, allFieldsSound,
      isSound_int (by rw [Nat.pow_eq]; omega) (by rw [Nat.pow_eq]; omega)]
    rfl
  | long l =>
    have hlow := l.le_toInt
    have hhigh := l.toInt_lt
    rw [encodeLiteral, allFieldsSound,
      isSound_int (by rw [Nat.pow_eq]; omega) (by rw [Nat.pow_eq]; omega)]
    rfl
  | ulong l =>
    have hlt : l.toNat < 2 ^ 64 := l.toNat_lt
    rw [encodeLiteral, allFieldsSound, isSound_nat (by rw [Nat.pow_eq]; omega)]
    rfl
  | uint u =>
    rw [encodeLiteral, allFieldsSound, isSound_uint32]
    rfl

/-- What is written of a node is read as that node, and may be read anywhere. -/
structure ReadBack (node : Node (Option Span)) : Prop where
  read : node? (encodeNode node) = some node
  sound : (encodeNode node).isSound = true

theorem optional_encodeOption (hfields : named name fields = encodeOption name node)
    (h : ∀ n ∈ node, ReadBack n) :
    optional fields name (fun v _ => node? v) = some node := by
  cases node with
  | none => exact optional_of_missing hfields
  | some n =>
    rw [optional_of_named (encodeNode n) hfields (encodeNode_ne_null n), (h n rfl).read]
    rfl

theorem allFieldsSound_encodeOption (h : ∀ n ∈ node, ReadBack n) :
    allFieldsSound (encodeOption name node) = true := by
  cases node with
  | none => rfl
  | some n =>
    rw [encodeOption, allFieldsSound, (h n rfl).sound]
    rfl

mutual

theorem readBack : (node : Node (Option Span)) → Exact node.preorder → ReadBack node
  | .literal span value, h => by
    have hexact : value.isExact = true := (exact_cons.mp h).1
    have hown := own_encodeLiteral value
    have hliteral := literal?_encodeLiteral value hexact span
    constructor <;> rw [encodeNode]
    · rw [encodeKind, node?, required_kind _ _ hown, optional_range _ _ hown]
      cases value <;> simp only [Option.bind_eq_bind, Option.bind_some, Literal.kind] at hliteral ⊢ <;>
        rw [hliteral] <;> rfl
    · exact isSound_encodeKind (allFieldsSound_encodeLiteral value hexact) ..
  | .ident span name, _ => by
    constructor <;> rw [encodeNode]
    · rw [encodeKind, node?, required_kind, optional_range]
      simp only [Option.bind_eq_bind, Option.bind_some]
      rw [required_own "name" (.string name)]
      rfl
    · exact isSound_encodeKind rfl ..
  | .selection span target member, h => by
    have htarget := readBack target (exact_cons.mp h).2
    constructor <;> rw [encodeNode]
    · rw [encodeKind, node?, required_kind, optional_range]
      simp only [Option.bind_eq_bind, Option.bind_some]
      rw [required_own "target" (encodeNode target), required_own "member" (.string member),
        htarget.read]
      rfl
    · exact isSound_encodeKind (by simp [allFieldsSound, htarget.sound, isSound]) ..
  | .call span target arguments, h => by
    have hboth := exact_append.mp (exact_cons.mp h).2
    have htarget := readBack target hboth.1
    have harguments := each_encodeNodes arguments hboth.2
    constructor <;> rw [encodeNode]
    · rw [encodeKind, node?, required_kind, optional_range]
      simp only [Option.bind_eq_bind, Option.bind_some]
      rw [required_own "target" (encodeNode target),
        defaulted_own "arguments" (.list (encodeNodes arguments)), htarget.read, items?, harguments.1]
      rfl
    · exact isSound_encodeKind (by simp [allFieldsSound, htarget.sound, isSound, harguments.2]) ..
  | .namedArgument span name value, h => by
    have hvalue := readBack value (exact_cons.mp h).2
    constructor <;> rw [encodeNode]
    · rw [encodeKind, node?, required_kind, optional_range]
      simp only [Option.bind_eq_bind, Option.bind_some]
      rw [required_own "name" (.string name), required_own "value" (encodeNode value), hvalue.read]
      rfl
    · exact isSound_encodeKind (by simp [allFieldsSound, hvalue.sound, isSound]) ..
  | .sequence span items, h => by
    have hitems := each_encodeNodes items (exact_cons.mp h).2
    constructor <;> rw [encodeNode]
    · rw [encodeKind, node?, required_kind, optional_range]
      simp only [Option.bind_eq_bind, Option.bind_some]
      rw [required_own "items" (.list (encodeNodes items)), items?, hitems.1]
      rfl
    · exact isSound_encodeKind (by simp [allFieldsSound, isSound, hitems.2]) ..
  | .definition span mutable name ascription value, h => by
    have hboth := exact_append.mp (exact_cons.mp h).2
    have hascription := option_encodeNode ascription hboth.1
    have hvalue := option_encodeNode value hboth.2
    have htype := fun {name} (hname : name ≠ "type") => named_encodeOption hname ascription
    have hnone := fun {name} (hname : name ≠ "value") => named_encodeOption hname value
    have hown : Own (("name", .string name) :: encodeOption "type" ascription ++
        encodeOption "value" value) := ⟨by simp [htype, hnone], by simp [htype, hnone]⟩
    constructor <;> rw [encodeNode]
    · rw [encodeKind, node?, required_kind _ _ hown, optional_range _ _ hown]
      simp only [Option.bind_eq_bind, Option.bind_some]
      rw [required_own "name" (.string name) (by simp [htype, hnone]),
        optional_encodeOption (by rw [named_kind (by decide) (by decide)]; simp [hnone]) hascription,
        optional_encodeOption (by rw [named_kind (by decide) (by decide)]; simp [htype]) hvalue]
      cases mutable <;> rfl
    · exact isSound_encodeKind (by simp [allFieldsSound, allFieldsSound_append, isSound,
        allFieldsSound_encodeOption hascription, allFieldsSound_encodeOption hvalue]) ..
  | .typeLiteral span members, h => by
    have hmembers := each_encodeMembers members (exact_cons.mp h).2
    constructor <;> rw [encodeNode]
    · rw [encodeKind, node?, required_kind, optional_range]
      simp only [Option.bind_eq_bind, Option.bind_some]
      rw [defaulted_own "members" (.list (encodeMembers members)), items?, hmembers.1]
      rfl
    · exact isSound_encodeKind (by simp [allFieldsSound, isSound, hmembers.2]) ..
  | .arrayType span element size, h => by
    have hboth := exact_append.mp (exact_cons.mp h).2
    have helement := readBack element hboth.1
    have hsize := option_encodeNode size hboth.2
    have hnone := fun {name} (hname : name ≠ "size") => named_encodeOption hname size
    have hown : Own (("element", encodeNode element) :: encodeOption "size" size) :=
      ⟨by simp [hnone], by simp [hnone]⟩
    constructor <;> rw [encodeNode]
    · rw [encodeKind, node?, required_kind _ _ hown, optional_range _ _ hown]
      simp only [Option.bind_eq_bind, Option.bind_some]
      rw [required_own "element" (encodeNode element) (by simp [hnone]), helement.read]
      rw [optional_encodeOption (by rw [named_kind (by decide) (by decide)]; simp) hsize]
      rfl
    · exact isSound_encodeKind
        (by simp [allFieldsSound, helement.sound, allFieldsSound_encodeOption hsize]) ..
  | .referenceType span referent, h => by
    have hreferent := readBack referent (exact_cons.mp h).2
    constructor <;> rw [encodeNode]
    · rw [encodeKind, node?, required_kind, optional_range]
      simp only [Option.bind_eq_bind, Option.bind_some]
      rw [required_own "referant" (encodeNode referent), hreferent.read]
      rfl
    · exact isSound_encodeKind (by simp [allFieldsSound, hreferent.sound]) ..
  | .extension span target members, h => by
    have hboth := exact_append.mp (exact_cons.mp h).2
    have htarget := readBack target hboth.1
    have hmembers := each_encodeMembers members hboth.2
    constructor <;> rw [encodeNode]
    · rw [encodeKind, node?, required_kind, optional_range]
      simp only [Option.bind_eq_bind, Option.bind_some]
      rw [required_own "target" (encodeNode target),
        defaulted_own "members" (.list (encodeMembers members)), htarget.read, items?, hmembers.1]
      rfl
    · exact isSound_encodeKind (by simp [allFieldsSound, htarget.sound, isSound, hmembers.2]) ..

theorem each_encodeNodes : (nodes : List (Node (Option Span))) → Exact (preorderOf nodes) →
    each (encodeNodes nodes) (fun w _ => node? w) = some nodes ∧ allSound (encodeNodes nodes) = true
  | [], _ => ⟨by rw [encodeNodes, each], rfl⟩
  | node :: rest, h => by
    have hboth := exact_append.mp h
    have hnode := readBack node hboth.1
    have hrest := each_encodeNodes rest hboth.2
    rw [encodeNodes, each, hnode.read, Option.bind_some, hrest.1, Option.map_some, allSound,
      hnode.sound, hrest.2]
    exact ⟨rfl, rfl⟩

theorem option_encodeNode : (node : Option (Node (Option Span))) → Exact (preorderOption node) →
    ∀ n ∈ node, ReadBack n
  | none, _ => nofun
  | some node, h => by
    rintro _ ⟨⟩
    exact readBack node h

theorem member?_encodeMember : (member : Member (Option Span)) → Exact member.preorder →
    member? (encodeMember member) = some member ∧ (encodeMember member).isSound = true
  | .field name type mutable, h => by
    have htype := readBack type h
    have hkind : choice? memberKinds (.string "field") = some "field" := by decide
    constructor
    · rw [encodeMember, member?, required_of_named (.string "field") (by simp), hkind]
      simp only [Option.bind_eq_bind, Option.bind_some, if_true]
      rw [required_of_named (.string name) (by simp), required_of_named (encodeNode type) (by simp),
        defaulted_of_named (.boolean mutable) (by simp), htype.read]
      rfl
    · simp [encodeMember, isSound, allFieldsSound, htype.sound]
  | .signature parameters result, h => by
    have hboth := exact_append.mp h
    have hparameters := each_encodeParameters parameters hboth.1
    have hresult := readBack result hboth.2
    have hkind : choice? memberKinds (.string "signature") = some "signature" := by decide
    constructor
    · rw [encodeMember, member?, required_of_named (.string "signature") (by simp), hkind]
      simp only [Option.bind_eq_bind, Option.bind_some, String.reduceEq, if_false, if_true]
      rw [defaulted_of_named (.list (encodeParameters parameters)) (by simp),
        required_of_named (encodeNode result) (by simp), items?, hparameters.1, hresult.read]
      rfl
    · simp [encodeMember, isSound, allFieldsSound, hresult.sound, hparameters.2]
  | .nested name value, h => by
    have hvalue := readBack value h
    have hkind : choice? memberKinds (.string "let") = some "let" := by decide
    constructor
    · rw [encodeMember, member?, required_of_named (.string "let") (by simp), hkind]
      simp only [Option.bind_eq_bind, Option.bind_some, String.reduceEq, if_false]
      rw [required_of_named (.string name) (by simp), required_of_named (encodeNode value) (by simp),
        hvalue.read]
      rfl
    · simp [encodeMember, isSound, allFieldsSound, hvalue.sound]

theorem each_encodeMembers : (members : List (Member (Option Span))) →
    Exact (preorderMembers members) →
    each (encodeMembers members) (fun w _ => member? w) = some members ∧
      allSound (encodeMembers members) = true
  | [], _ => ⟨by rw [encodeMembers, each], rfl⟩
  | member :: rest, h => by
    have hboth := exact_append.mp h
    have hmember := member?_encodeMember member hboth.1
    have hrest := each_encodeMembers rest hboth.2
    rw [encodeMembers, each, hmember.1, Option.bind_some, hrest.1, Option.map_some, allSound,
      hmember.2, hrest.2]
    exact ⟨rfl, rfl⟩

theorem parameter?_encodeParameter : (parameter : Parameter (Option Span)) →
    Exact parameter.preorder → parameter? (encodeParameter parameter) = some parameter ∧
      (encodeParameter parameter).isSound = true
  | .mk name type fallback, h => by
    have hboth := exact_append.mp h
    have htype := readBack type hboth.1
    have hfallback := option_encodeNode fallback hboth.2
    have hnone := fun {name} (hname : name ≠ "default") => named_encodeOption hname fallback
    constructor
    · rw [encodeParameter, parameter?, required_of_named (.string name) (by simp [hnone]),
        required_of_named (encodeNode type) (by simp [hnone]),
        optional_encodeOption (by simp) hfallback, htype.read]
      rfl
    · simp [encodeParameter, isSound, allFieldsSound, htype.sound, allFieldsSound_encodeOption hfallback]

theorem each_encodeParameters : (parameters : List (Parameter (Option Span))) →
    Exact (preorderParameters parameters) →
    each (encodeParameters parameters) (fun w _ => parameter? w) = some parameters ∧
      allSound (encodeParameters parameters) = true
  | [], _ => ⟨by rw [encodeParameters, each], rfl⟩
  | parameter :: rest, h => by
    have hboth := exact_append.mp h
    have hparameter := parameter?_encodeParameter parameter hboth.1
    have hrest := each_encodeParameters rest hboth.2
    rw [encodeParameters, each, hparameter.1, Option.bind_some, hrest.1, Option.map_some, allSound,
      hparameter.2, hrest.2]
    exact ⟨rfl, rfl⟩

end

/-! Documents -/

theorem isSound_of_mem (h : allFieldsSound fields = true)
    (hfield : field ∈ fields) : field.2.isSound = true := by
  induction fields with
  | nil => cases hfield
  | cons first fields ih =>
    obtain ⟨name, v⟩ := first
    rw [allFieldsSound, Bool.and_eq_true] at h
    rcases List.mem_cons.mp hfield with rfl | hmem
    · exact h.1
    · exact ih h.2 hmem

theorem depth_le_fieldsDepth (h : field ∈ fields) :
    field.2.depth ≤ fieldsDepth fields := by
  induction fields with
  | nil => cases h
  | cons first fields ih =>
    rw [fieldsDepth]
    rcases List.mem_cons.mp h with rfl | hmem
    · exact Nat.le_max_left ..
    · exact (ih hmem).trans (Nat.le_max_right ..)

theorem encodeNode_eq_object (node : Node (Option Span)) :
    ∃ fields, encodeNode node = .object fields := by
  cases node <;> exact ⟨_, by rw [encodeNode, encodeKind]⟩

theorem binding?_encodeNode (node : Node (Option Span)) (h : Exact node.preorder)
    (hdepth : (encodeNode node).depth + 2 ≤ nesting) : binding? (encodeNode node) = some node := by
  obtain ⟨fields, hfields⟩ := encodeNode_eq_object node
  obtain ⟨hnode, hsound⟩ := readBack node h
  rw [hfields] at hsound hdepth hnode ⊢
  rw [isSound] at hsound
  rw [depth] at hdepth
  have hreadable : fields.all isReadable = true := by
    rw [List.all_eq_true]
    intro field hfield
    have hle := depth_le_fieldsDepth hfield
    simp only [isReadable, isSound_of_mem hsound hfield, Bool.or_eq_true, Bool.true_and,
      decide_eq_true_eq]
    exact .inr (by omega)
  rw [binding?, if_pos hreadable, hnode]

theorem each_bindings (nodes : List (Node (Option Span))) (h : Exact (preorderOf nodes))
    (hdepth : itemsDepth (encodeNodes nodes) + 2 ≤ nesting) :
    each (encodeNodes nodes) (fun w _ => binding? w) = some nodes := by
  induction nodes with
  | nil => rw [encodeNodes, each]
  | cons node rest ih =>
    have hboth := exact_append.mp h
    rw [encodeNodes, itemsDepth] at hdepth
    have hnode : (encodeNode node).depth ≤ _ := Nat.le_max_left _ (itemsDepth (encodeNodes rest))
    have hrest : itemsDepth (encodeNodes rest) ≤ _ := Nat.le_max_right (encodeNode node).depth _
    rw [encodeNodes, each, binding?_encodeNode node hboth.1 (by omega), Option.bind_some,
      ih hboth.2 (by omega), Option.map_some]

/-- A document is what one reads from its text, in which nothing is lost and nothing is added. -/
theorem read?_write (d : Document) (hexact : ∀ x ∈ preorderOf d.bindings, x.isExact = true)
    (hdepth : d.encode.depth ≤ 127) :
    Json.parse? d.write = some d.encode ∧ read? d.write = some d := by
  have hsound : d.encode.isSound = true := by
    rw [encode, isSound, allFieldsSound, isSound, (each_encodeNodes d.bindings hexact).2]
    rfl
  have hparse : Json.parse? d.write = some d.encode := parse?_compact hsound
  have hnesting : itemsDepth (encodeNodes d.bindings) + 2 ≤ nesting := by
    rw [encode, depth, fieldsDepth, fieldsDepth, depth] at hdepth
    rw [nesting]
    omega
  refine ⟨hparse, ?_⟩
  rw [read?, hparse, Option.bind_some, encode, decode?,
    defaulted_of_named (.list (encodeNodes d.bindings)) (by simp), items?,
    each_bindings d.bindings hexact hnesting]
  rfl

/-- Extreme integers, characters that have to be escaped or lie beyond the first plane, members of all
forms and a span. -/
def specimen : Document where
  bindings := [
    .definition (some ⟨7, ⟨1, 2⟩, ⟨4294967295, 0⟩⟩) true "text" none
      (some (.literal none (.string "\u0001\n\"\\\u00e9\u2028😀"))),
    .sequence none [.literal none (.long (-9223372036854775808)),
      .literal none (.ulong 18446744073709551615), .literal none (.int (-1)), .literal none (.byte 255),
      .literal none (.rune '\t'), .literal none .null],
    .extension none (.selection none (.ident none "Outer") "Inner") [
      .signature [.mk "a" (.arrayType none (.ident none "Int") (some (.literal none (.uint 3))))
        (some (.literal none (.boolean true)))] (.referenceType none (.ident none "Int")),
      .nested "Deep" (.typeLiteral none [.field "x" (.ident none "Int") true])],
    .call none (.ident none "+") [.namedArgument none "a" (.literal none (.int 1))]]

theorem read?_write_specimen : (∀ x ∈ preorderOf specimen.bindings, x.isExact = true) ∧
    specimen.encode.depth ≤ 127 ∧
    Json.parse? specimen.write = some specimen.encode ∧ read? specimen.write = some specimen := by
  have hexact : ∀ x ∈ preorderOf specimen.bindings, x.isExact = true := List.all_eq_true.mp rfl
  have hdepth : specimen.encode.depth ≤ 127 := by decide
  exact ⟨hexact, hdepth, read?_write specimen hexact hdepth⟩

end Document
end Binder
