import Binder.Proofs.Inference.Verdict

/-! The rules of typing. A node whose verdict finds no fault, and whose operands do not have the error
type, has its symbol according to the rules. -/
namespace Binder.Inference.State

open Binder.Tree (Expr)

/-- The rules of typing: which symbol a node has, given those of the nodes below it. -/
def Typing (scope : Scope Declaration) (s : State) : Expr → SymbolId → Prop
  | .literal _ value, symbol => symbol = Prelude.literalType value
  | .ident _ name, symbol => ∃ m, scope.find? name = some (.value m) ∧ symbol = m.type
  | .selection _ target member, symbol => ∃ t d m, s.resolved? target.id = some t ∧
      s.graph.def? t = some d ∧ d.findMember? member = some m ∧ symbol = m.type
  | .call _ target arguments, symbol => ∃ t ts signature, s.resolved? target.id = some t ∧
      arguments.map (fun a => s.resolved? a.id) = ts.map some ∧
      Overload.signature? s.graph (arguments.map Tree.Node.argumentName?) t ts = some signature ∧
      symbol = signature.result
  | .namedArgument _ _ value, symbol => s.typeOf? value.id = some symbol
  | _, _ => False

variable {s : State} {x : Expr} {symbol : SymbolId}

theorem typing_of_verdict? (h : s.verdict? x = some ⟨symbol, none⟩)
    (hsound : ∀ y ∈ x.operands, ∀ t, s.resolved? y.id = some t → s.graph.isErrorType t = false) :
    s.Typing s.scope x symbol := by
  cases x with
  | literal =>
    cases h
    rfl
  | ident note name =>
    simp only [verdict?, Verdict.ofName, Option.some.injEq] at h
    split at h
    next m hm =>
      cases h
      exact ⟨m, hm, rfl⟩
    · cases h
    · cases h
  | selection note target member =>
    obtain ⟨t, ht, hv⟩ := Option.map_eq_some_iff.mp h
    rw [Verdict.ofMember, if_neg (by simp [hsound target List.mem_cons_self t ht])] at hv
    split at hv
    next m hm =>
      obtain ⟨d, hd, hfind⟩ := Option.bind_eq_some_iff.mp hm
      cases hv
      exact ⟨t, d, m, ht, hd, hfind, rfl⟩
    · cases hv
  | call note target arguments =>
    simp only [verdict?] at h
    split at h
    next hall =>
      rw [List.map_cons, List.all_cons, Bool.and_eq_true] at hall
      obtain ⟨t, ht⟩ := Option.isSome_iff_exists.mp hall.1
      have harguments := (map_some_filterMap_id hall.2).symm
      have hany : (t :: (arguments.map fun e => s.resolved? e.id).filterMap id).any
          s.graph.isErrorType = false := by
        rw [List.any_eq_false, List.forall_mem_cons]
        refine ⟨by simp [hsound target List.mem_cons_self t ht], fun u hu => ?_⟩
        obtain ⟨slot, hslot, rfl⟩ := List.mem_filterMap.mp hu
        obtain ⟨e, he, heq⟩ := List.mem_map.mp hslot
        simp [hsound e (List.mem_cons_of_mem target he) u heq]
      rw [List.map_cons, ht, List.filterMap_cons_some (f := id) (b := t) rfl, Verdict.ofCall, hany,
        if_neg Bool.false_ne_true, Option.some.injEq] at h
      split at h
      · cases h
      · split at h
        next signature hsignature =>
          cases h
          exact ⟨t, _, signature, ht, harguments, hsignature, rfl⟩
        · cases h
    · cases h
  | namedArgument note name value =>
    obtain ⟨a, ha, hv⟩ := Option.map_eq_some_iff.mp h
    cases hv
    exact ha
  | sequence | definition | typeLiteral | arrayType | referenceType | extension => cases h

end Binder.Inference.State
