import Binder.Constant.Fold
import Binder.Tree.Walk
import Mathlib.Tactic.Common

/-! Trees with other notes. What a tree is apart from its notes stays as it is, and so does whatever
is read off it without looking at the notes. -/
namespace Binder.Tree

variable {α β γ : Type}

mutual

/-- A tree with its notes changed one by one. -/
def Node.map (f : α → β) : Node α → Node β
  | .literal note value => .literal (f note) value
  | .ident note name => .ident (f note) name
  | .selection note target member => .selection (f note) (target.map f) member
  | .call note target arguments => .call (f note) (target.map f) (mapNodes f arguments)
  | .namedArgument note name value => .namedArgument (f note) name (value.map f)
  | .sequence note items => .sequence (f note) (mapNodes f items)
  | .definition note mutable name ascription value =>
      .definition (f note) mutable name (mapOption f ascription) (mapOption f value)
  | .typeLiteral note members => .typeLiteral (f note) (mapMembers f members)
  | .arrayType note element size => .arrayType (f note) (element.map f) (mapOption f size)
  | .referenceType note referent => .referenceType (f note) (referent.map f)
  | .extension note target members => .extension (f note) (target.map f) (mapMembers f members)

def mapNodes (f : α → β) : List (Node α) → List (Node β)
  | [] => []
  | node :: rest => node.map f :: mapNodes f rest

def mapOption (f : α → β) : Option (Node α) → Option (Node β)
  | none => none
  | some node => some (node.map f)

def Member.map (f : α → β) : Member α → Member β
  | .field name type mutable => .field name (type.map f) mutable
  | .signature parameters result => .signature (mapParameters f parameters) (result.map f)
  | .nested name value => .nested name (value.map f)

def mapMembers (f : α → β) : List (Member α) → List (Member β)
  | [] => []
  | member :: rest => member.map f :: mapMembers f rest

def Parameter.map (f : α → β) : Parameter α → Parameter β
  | .mk name type fallback => .mk name (type.map f) (mapOption f fallback)

def mapParameters (f : α → β) : List (Parameter α) → List (Parameter β)
  | [] => []
  | parameter :: rest => parameter.map f :: mapParameters f rest

end

theorem mapNodes_eq (f : α → β) (es : List (Node α)) : mapNodes f es = es.map (Node.map f) := by
  induction es with
  | nil => rfl
  | cons e es ih => rw [mapNodes, ih, List.map_cons]

theorem mapOption_eq (f : α → β) (e : Option (Node α)) : mapOption f e = e.map (Node.map f) := by
  cases e <;> rfl

theorem mapMembers_eq (f : α → β) (ms : List (Member α)) :
    mapMembers f ms = ms.map (Member.map f) := by
  induction ms with
  | nil => rfl
  | cons m ms ih => rw [mapMembers, ih, List.map_cons]

theorem mapParameters_eq (f : α → β) (ps : List (Parameter α)) :
    mapParameters f ps = ps.map (Parameter.map f) := by
  induction ps with
  | nil => rfl
  | cons p ps ih => rw [mapParameters, ih, List.map_cons]

section

variable (f : α → β)

@[simp] theorem Node.note_map (e : Node α) : (e.map f).note = f e.note := by
  cases e <;> rfl

@[simp] theorem Node.argumentName?_map (e : Node α) :
    (e.map f).argumentName? = e.argumentName? := by
  cases e <;> rfl

theorem Node.declaredMembers?_map (e : Node α) :
    (e.map f).declaredMembers? = e.declaredMembers?.map (List.map (Member.map f)) := by
  cases e with
  | definition note mutable name ascription value =>
    cases mutable
    · rcases ascription with - | ascription
      · rcases value with - | value
        · rfl
        · cases value with
          | typeLiteral note members =>
            exact congrArg some (mapMembers_eq f members)
          | _ => rfl
      · rfl
    · rfl
  | _ => rfl

end

mutual

theorem Node.map_id : (e : Node α) → e.map id = e
  | .literal .. | .ident .. => rfl
  | .selection _ target _ => by simp only [Node.map, Node.map_id target, id_eq]
  | .call _ target arguments => by
    simp only [Node.map, Node.map_id target, mapNodes_id arguments, id_eq]
  | .namedArgument _ _ value => by simp only [Node.map, Node.map_id value, id_eq]
  | .sequence _ items => by simp only [Node.map, mapNodes_id items, id_eq]
  | .definition _ _ _ ascription value => by
    simp only [Node.map, mapOption_id ascription, mapOption_id value, id_eq]
  | .typeLiteral _ members => by simp only [Node.map, mapMembers_id members, id_eq]
  | .arrayType _ element size => by
    simp only [Node.map, Node.map_id element, mapOption_id size, id_eq]
  | .referenceType _ referent => by simp only [Node.map, Node.map_id referent, id_eq]
  | .extension _ target members => by
    simp only [Node.map, Node.map_id target, mapMembers_id members, id_eq]

theorem mapNodes_id : (es : List (Node α)) → mapNodes id es = es
  | [] => rfl
  | e :: rest => by simp only [mapNodes, Node.map_id e, mapNodes_id rest]

theorem mapOption_id : (e : Option (Node α)) → mapOption id e = e
  | none => rfl
  | some e => by simp only [mapOption, Node.map_id e]

theorem Member.map_id : (m : Member α) → m.map id = m
  | .field _ type _ => by simp only [Member.map, Node.map_id type]
  | .signature parameters result => by
    simp only [Member.map, mapParameters_id parameters, Node.map_id result]
  | .nested _ value => by simp only [Member.map, Node.map_id value]

theorem mapMembers_id : (ms : List (Member α)) → mapMembers id ms = ms
  | [] => rfl
  | m :: rest => by simp only [mapMembers, Member.map_id m, mapMembers_id rest]

theorem Parameter.map_id : (p : Parameter α) → p.map id = p
  | .mk _ type fallback => by simp only [Parameter.map, Node.map_id type, mapOption_id fallback]

theorem mapParameters_id : (ps : List (Parameter α)) → mapParameters id ps = ps
  | [] => rfl
  | p :: rest => by simp only [mapParameters, Parameter.map_id p, mapParameters_id rest]

end

/-- Folding looks at the spans alone. -/
theorem eval_map {f : Mark → Mark} (hf : ∀ m, (f m).span = m.span) (e : Expr) :
    Constant.eval (e.map f) = Constant.eval e := by
  induction e using Constant.eval.induct with
  | case1 => rfl
  | case2 note note' op operand hop =>
    simp only [Node.map, mapNodes, Constant.eval, hop]
  | case3 note note' op operand expects hop ih =>
    simp only [Node.map, mapNodes, Constant.eval, hop, ih, Node.span, Node.note_map, hf]
  | case4 note note' op left right ihl ihr =>
    simp only [Node.map, mapNodes, Constant.eval, ihl, ihr, Node.span, Node.note_map, hf]
  | case5 e hliteral hunary hbinary =>
    cases e with
    | literal note value => exact absurd rfl (hliteral note value)
    | call note target arguments =>
      cases target with
      | ident note' op =>
        rcases arguments with - | ⟨a, - | ⟨b, - | ⟨c, rest⟩⟩⟩
        · rfl
        · exact absurd rfl (hunary note note' op a)
        · exact absurd rfl (hbinary note note' op a b)
        · rfl
      | _ => rfl
    | _ => rfl

end Binder.Tree
