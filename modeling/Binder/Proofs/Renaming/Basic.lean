import Binder.Module.Context
import Binder.Proofs.Tree.Notes
import Mathlib.Logic.Embedding.Basic

/-! Other numbers for nodes, types and calls. These are numbered in the order in which they are met,
so that two runs which meet the same things in another order differ by a renaming. -/
namespace Binder

open Binder.Tree (Expr Mark NodeId)

/-- Other numbers for nodes and calls. -/
structure Renumbering where
  node : NodeId ↪ NodeId
  call : Nat ↪ Nat

/-- Other numbers for nodes, calls and types. -/
structure Renaming extends Renumbering where
  type : TypeId ↪ TypeId

namespace Renumbering

variable (ρ : Renumbering)

/-! Marks and trees -/

def mark (m : Mark) : Mark := ⟨ρ.node m.id, m.span⟩

def expr (e : Expr) : Expr := e.map ρ.mark

def treeMember (m : Tree.Member Mark) : Tree.Member Mark := m.map ρ.mark

def treeParameter (p : Tree.Parameter Mark) : Tree.Parameter Mark := p.map ρ.mark

@[simp] theorem note_expr (e : Expr) : (ρ.expr e).note = ρ.mark e.note := Tree.Node.note_map ..

@[simp] theorem id_expr (e : Expr) : (ρ.expr e).id = ρ.node e.id := by
  rw [Tree.Node.id, note_expr]
  rfl

@[simp] theorem span_expr (e : Expr) : (ρ.expr e).span = e.span := by
  rw [Tree.Node.span, note_expr]
  rfl

@[simp] theorem argumentName?_expr (e : Expr) : (ρ.expr e).argumentName? = e.argumentName? :=
  Tree.Node.argumentName?_map ..

@[simp] theorem eval_expr (e : Expr) : Constant.eval (ρ.expr e) = Constant.eval e :=
  Tree.eval_map (f := ρ.mark) (fun _ => rfl) e

/-! What holds nodes -/

def parameter (p : Parameter) : Parameter := { p with fallback := p.fallback.map ρ.expr }

def signature (s : Signature) : Signature := { s with parameters := s.parameters.map ρ.parameter }

def typeDef (d : TypeDef) : TypeDef := { d with signatures := d.signatures.map ρ.signature }

theorem typeDef_eq_self {d : TypeDef} (h : ∀ s ∈ d.signatures, ∀ p ∈ s.parameters,
    p.fallback.map ρ.expr = p.fallback) : ρ.typeDef d = d := by
  have hsignatures : d.signatures.map ρ.signature = d.signatures := by
    refine (List.map_congr_left fun s hs => ?_).trans (List.map_id _)
    have hparameters : s.parameters.map ρ.parameter = s.parameters := by
      refine (List.map_congr_left fun p hp => ?_).trans (List.map_id _)
      rw [parameter, h s hs p hp]
      rfl
    rw [signature, hparameters]
    rfl
  rw [typeDef, hsignatures]

def builder (b : TypeBuilder) : TypeBuilder :=
  { b with signatures := b.signatures.map ρ.signature }

def definition (d : Definition) : Definition :=
  { d with
    node := ρ.mark d.node
    ascription := d.ascription.map ρ.expr
    value := d.value.map ρ.expr }

def moduleValue (v : ModuleValue) : ModuleValue := { v with definition := ρ.definition v.definition }

def declaredType (d : DeclaredType) : DeclaredType :=
  { d with members := d.members.map ρ.treeMember }

def extension (x : Extension) : Extension := ⟨ρ.expr x.target, x.members.map ρ.treeMember⟩

def fallback (f : Expr × SymbolId) : Expr × SymbolId := (ρ.expr f.1, f.2)

abbrev retype (τ : TypeId ↪ TypeId) : Renaming := ⟨ρ, τ⟩

end Renumbering

def Renaming.entry (ρ : Renaming) (x : Symbol) : Symbol := { x with type := x.type.map ρ.type }

end Binder
