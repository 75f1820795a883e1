import Binder.Proofs.Module.Folding
import Binder.Proofs.Module.Readings
import Binder.Proofs.Module.Turns
import Binder.Proofs.Module.Unresolved

/-! The outcome of a build, pass by pass. What is reported at the end is known exactly: a build reports
nothing just if no pass has, nothing waits for a type, all values have types and folding finds no fault.
Then the constants of values can be told from their definitions. Folding does not look at notes, except
for where a fault is reported. -/
namespace Binder

open Binder.Tree (Expr Node)
open Inference (Task)

namespace Tree

variable {α : Type} {e : Node α} {note : Unit} {op : String}

theorem erase_eq_literal {value : Literal} (h : e.erase = .literal note value) :
    ∃ note', e = .literal note' value := by
  cases e <;> simp_all [Node.erase]

theorem erase_eq_call {target : Node Unit} {arguments : List (Node Unit)}
    (h : e.erase = .call note target arguments) :
    ∃ note' target' arguments', e = .call note' target' arguments' ∧ target'.erase = target ∧
      arguments'.map Node.erase = arguments := by
  cases e <;> simp_all [Node.erase, eraseAll_eq]

theorem erase_eq_operation {operands : List (Node Unit)}
    (h : e.erase = .call note (.ident note op) operands) :
    ∃ note' note'' operands', e = .call note' (.ident note'' op) operands' ∧
      operands'.map Node.erase = operands := by
  obtain ⟨note', target, operands', rfl, htarget, hoperands⟩ := erase_eq_call h
  obtain ⟨note'', rfl⟩ := erase_eq_ident htarget
  exact ⟨note', note'', operands', rfl, hoperands⟩

theorem erase_eq_unary {operand : Node Unit}
    (h : e.erase = .call note (.ident note op) [operand]) :
    ∃ note' note'' operand', e = .call note' (.ident note'' op) [operand'] ∧
      operand'.erase = operand := by
  obtain ⟨note', note'', operands, rfl, hoperands⟩ := erase_eq_operation h
  obtain ⟨operand', rfl, hoperand⟩ := List.map_eq_singleton_iff.1 hoperands
  exact ⟨note', note'', operand', rfl, hoperand⟩

theorem erase_eq_binary {left right : Node Unit}
    (h : e.erase = .call note (.ident note op) [left, right]) :
    ∃ note' note'' left' right', e = .call note' (.ident note'' op) [left', right'] ∧
      left'.erase = left ∧ right'.erase = right := by
  obtain ⟨note', note'', operands, rfl, hoperands⟩ := erase_eq_operation h
  obtain ⟨left', rest, rfl, hleft, hrest⟩ := List.map_eq_cons_iff.1 hoperands
  obtain ⟨right', rfl, hright⟩ := List.map_eq_singleton_iff.1 hrest
  exact ⟨note', note'', left', right', rfl, hleft, hright⟩

end Tree

namespace Constant

/-- Two folds that have come to the same, wherever faults were found. -/
structure Agrees (r r' : Evaluated) : Prop where
  constant : r'.1 = r.1
  faults : r'.2.map Diagnostic.fault = r.2.map Diagnostic.fault

theorem unary_agrees (op : String) (expects : TypeCode) (span span' : Span) (c : Constant) :
    Agrees (unary op expects span c) (unary op expects span' c) := by
  cases c with
  | notConst | failed => exact ⟨rfl, rfl⟩
  | known v =>
    simp only [unary]
    split <;> exact ⟨rfl, rfl⟩

theorem binary_agrees (op : String) (span span' right right' : Span) (l r : Constant) :
    Agrees (binary op span right l r) (binary op span' right' l r) := by
  cases l with
  | notConst => exact ⟨rfl, rfl⟩
  | failed => cases r <;> exact ⟨rfl, rfl⟩
  | known a =>
    cases r with
    | notConst | failed => exact ⟨rfl, rfl⟩
    | known b =>
      simp only [binary]
      split
      · exact ⟨rfl, rfl⟩
      · split
        · exact ⟨rfl, rfl⟩
        · split
          · exact ⟨rfl, rfl⟩
          · split <;> exact ⟨rfl, rfl⟩

theorem eval_agrees {e e' : Expr} (h : e'.erase = e.erase) : Agrees (eval e) (eval e') := by
  induction e using eval.induct generalizing e' with
  | case1 note value =>
    obtain ⟨note', rfl⟩ := Tree.erase_eq_literal h
    exact ⟨rfl, rfl⟩
  | case2 note note' op operand hnone =>
    obtain ⟨n, n', operand', rfl, -⟩ := Tree.erase_eq_unary h
    simp only [eval, hnone]
    exact ⟨rfl, rfl⟩
  | case3 note note' op operand expects hsome ih =>
    obtain ⟨n, n', operand', rfl, hoperand⟩ := Tree.erase_eq_unary h
    have hc := ih hoperand
    have hr := unary_agrees op expects operand.span operand'.span (eval operand).1
    simp only [eval, hsome, hc.constant]
    exact ⟨hr.constant, by rw [List.map_append, List.map_append, hc.faults, hr.faults]⟩
  | case4 note note' op left right ihl ihr =>
    obtain ⟨n, n', left', right', rfl, hleft, hright⟩ := Tree.erase_eq_binary h
    have hl := ihl hleft
    have hr := ihr hright
    have hc := binary_agrees op note.span n.span right.span right'.span (eval left).1 (eval right).1
    simp only [eval, hl.constant, hr.constant]
    exact ⟨hc.constant, by simp only [List.map_append, hl.faults, hr.faults, hc.faults]⟩
  | case5 e hliteral hunary hbinary =>
    -- What is not folded on one side is not of a shape that the other side folds.
    rw [eval.eq_4 e hliteral hunary hbinary, eval.eq_4 e' ?_ ?_ ?_]
    · exact ⟨rfl, rfl⟩
    · rintro note value rfl
      obtain ⟨note', he⟩ := Tree.erase_eq_literal h.symm
      exact hliteral note' value he
    · rintro note note' op operand rfl
      obtain ⟨n, n', operand', he, -⟩ := Tree.erase_eq_unary h.symm
      exact hunary n n' op operand' he
    · rintro note note' op left right rfl
      obtain ⟨n, n', left', right', he, -⟩ := Tree.erase_eq_binary h.symm
      exact hbinary n n' op left' right' he

theorem Agrees.silent {r r' : Evaluated} (h : Agrees r r') (hr : r.2 = []) : r'.2 = [] := by
  have := h.faults
  rw [hr] at this
  exact List.map_eq_nil_iff.1 this

end Constant

/-- What the initialiser of an immutable value folds to. -/
def ModuleValue.constant? (v : ModuleValue) : Option Constant :=
  v.definition.value.bind fun e =>
    if v.member.isMutable = false ∧ (Constant.eval e).1.isConst then some (Constant.eval e).1 else none

namespace Context.Outcome

variable {name : String} {root e : Expr} {i m c : Context} {s : Inference.State} {v : ModuleValue}

variable (h : Outcome name root i m s c)
include h

theorem values : Values root.bindings i m :=
  ⟨h.furnished, h.once, h.valued⟩

theorem declared : c.declared = m.declared := by
  rw [h.ended]
  rfl

/-- A build reports nothing just if none of its passes does. -/
theorem clean_iff : c.diagnostics = [] ↔
    m.diagnostics = [] ∧ s.diagnostics = [] ∧ s.blocked = [] ∧ m.foldingFaults = [] ∧
      (∀ v ∈ m.values, (m.concluded s).faultsOf v = []) ∧
      ∀ v ∈ m.values, s.graph.isBound v.member.type := by
  have hfinish : (Inference.finish s).diagnostics = [] ↔ s.diagnostics = [] ∧ s.blocked = [] := by
    refine ⟨Build.blocked_eq_nil_of_finish, ?_⟩
    rintro ⟨hreported, hblocked⟩
    simp [Inference.finish, hreported, hblocked, Span.sort]
  rw [h.ended]
  simp only [Context.ended, List.append_eq_nil_iff, hfinish, folded, List.flatMap_eq_nil_iff, List.map_eq_nil_iff,
    Build.uninferred, List.filter_eq_nil_iff, Bool.not_eq_true', Bool.not_eq_false, and_assoc]
  rfl

theorem typed_initialiser (hclean : c.diagnostics = [])
    (hv : v ∈ m.values) (he : v.definition.value = some e) :
    (s.typeOf? e.id).any (fun type => !s.graph.isError type) = true := by
  obtain ⟨symbol, t, hsymbol, ht, herror, -⟩ := h.toCompleted.typed hclean
    (Silent.infer_mem_of_value hv he).1 (Tree.mem_preorder_self e)
  have hnone : s.graph.isError symbol = false := by
    rw [← h.built.isError_eq h.concludes.ready, TypeGraph.isError_eq_isErrorType ht, herror]
  rw [← h.typeOf?_eq, hsymbol, Option.any_some, hnone]
  rfl

theorem constant?_eq (hclean : c.diagnostics = [])
    (hv : v ∈ m.values) : c.constant? v.member.name = v.constant? := by
  rw [constant?, h.built.constants, h.named.constants, List.nil_append,
    lookup_recorded? h.named.distinct hv, recorded?, ModuleValue.constant?]
  cases he : v.definition.value with
  | none => rfl
  | some e =>
    have htyped : ((m.concluded s).inference.typeOf? e.id).any
        (fun type => !(m.concluded s).graph.isError type) = true := h.typed_initialiser hclean hv he
    simp only [Option.bind_some, htyped, true_and]
    split <;> rfl

theorem faults_eq_nil (hclean : c.diagnostics = [])
    (hv : v ∈ m.values) (he : v.definition.value = some e)
    (hmutable : v.member.isMutable = false) : (Constant.eval e).2 = [] := by
  obtain ⟨-, -, -, -, hfaults, -⟩ := h.clean_iff.mp hclean
  have htyped : ((m.concluded s).inference.typeOf? e.id).any
      (fun type => !(m.concluded s).graph.isError type) = true := h.typed_initialiser hclean hv he
  have hnone := hfaults v hv
  simpa [faultsOf, he, hmutable, htyped] using hnone

end Context.Outcome
end Binder
