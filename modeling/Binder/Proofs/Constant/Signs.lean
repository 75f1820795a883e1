import Binder.Proofs.Constant.Typing

/-! Type errors of the evaluator. The prelude has both signs for all numeric types, while the evaluator
folds them for signed integers and floating-point numbers only. On expressions that inference finds no
fault with, this is the only difference: the evaluator reports a type error for each sign before a
constant of type `Byte` or `UInt`, and none besides. -/
namespace Binder

open Binder.Tree (Expr Mark Node)

variable {op : String} {v w : Value}

/-- A type was expected that a constant does not have. -/
def Fault.isTypeError : Fault → Bool
  | .expectedTypeCode _ => true
  | _ => false

namespace Constant

variable {b : Builtin} {expects : TypeCode} {operand : Expr} {note mark : Mark}

/-- The expressions that the evaluator looks at, each after its operands. -/
def visited : Expr → List Expr
  | .call note (.ident mark op) [operand] =>
      match unaryOperand? op with
      | none => [.call note (.ident mark op) [operand]]
      | some _ => visited operand ++ [.call note (.ident mark op) [operand]]
  | .call note (.ident mark op) [left, right] =>
      visited left ++ visited right ++ [.call note (.ident mark op) [left, right]]
  | e => [e]

/-- The operand of a sign, if it folds to a constant of an unsigned type. -/
def unsignedOperand? : Expr → Option Expr
  | .call _ (.ident _ op) [operand] =>
      if op = "+" ∨ op = "-" then
        match (eval operand).1 with
        | .known (.byte _) | .known (.uint _) => some operand
        | _ => none
      else none
  | _ => none

theorem eq_boolean_of_result? (h : (Prelude.result? "!" [b]).isSome) : b = .boolean := by
  revert h
  cases b <;> decide

theorem mem_numeric_of_result? (hop : op = "+" ∨ op = "-")
    (h : (Prelude.result? op [b]).isSome) : b ∈ Builtin.numeric := by
  revert h
  rcases hop with rfl | rfl <;> cases b <;> decide

theorem unsigned_of_numeric (hop : op = "+" ∨ op = "-") (hnumeric : v.builtin ∈ Builtin.numeric)
    (hvalue : unaryValue? op v = none) : (∃ b, v = .byte b) ∨ ∃ u, v = .uint u := by
  cases v with
  | byte b => exact .inl ⟨b, rfl⟩
  | uint u => exact .inr ⟨u, rfl⟩
  | int | long | float | double => rcases hop with rfl | rfl <;> cases hvalue
  | boolean | null | rune | string =>
    simp [Builtin.numeric, Builtin.integral, Value.builtin] at hnumeric

theorem unsigned_of_result? (hexpects : unaryOperand? op = some expects)
    (hresult : (Prelude.result? op [v.builtin]).isSome) (hvalue : unaryValue? op v = none) :
    expects = .int ∧ (op = "+" ∨ op = "-") ∧ ((∃ b, v = .byte b) ∨ ∃ u, v = .uint u) := by
  have hsign : ∀ {op}, op = "+" ∨ op = "-" → (Prelude.result? op [v.builtin]).isSome →
      unaryValue? op v = none → (∃ b, v = .byte b) ∨ ∃ u, v = .uint u := fun hop hresult hvalue =>
    unsigned_of_numeric hop (mem_numeric_of_result? hop hresult) hvalue
  unfold unaryOperand? at hexpects
  split at hexpects
  · have hboolean := eq_boolean_of_result? hresult
    cases v <;> cases hboolean
    cases hvalue
  · cases hexpects
    exact ⟨rfl, .inl rfl, hsign (.inl rfl) hresult hvalue⟩
  · cases hexpects
    exact ⟨rfl, .inr rfl, hsign (.inr rfl) hresult hvalue⟩
  · cases hexpects

theorem unsignedOperand?_of_unsigned (hc : (eval operand).1 = .known v) (hop : op = "+" ∨ op = "-")
    (hv : (∃ b, v = .byte b) ∨ ∃ u, v = .uint u) :
    unsignedOperand? (.call note (.ident mark op) [operand]) = some operand := by
  rw [unsignedOperand?, if_pos hop, hc]
  rcases hv with ⟨b, rfl⟩ | ⟨u, rfl⟩ <;> rfl

theorem unsignedOperand?_of_folded (hc : (eval operand).1 = .known v)
    (hvalue : unaryValue? op v = some w) :
    unsignedOperand? (.call note (.ident mark op) [operand]) = none := by
  rw [unsignedOperand?, hc]
  split
  next hop =>
    rcases hop with rfl | rfl <;> cases v <;> first | rfl | cases hvalue
  next => rfl

theorem eq_of_result? {a : Builtin} (h : (Prelude.result? op [a, b]).isSome) : a = b := by
  have hall : ∀ entry ∈ Prelude.operators, ∀ s ∈ entry.2,
      ∀ p ∈ s.parameters, ∀ q ∈ s.parameters, p.type = q.type := by decide
  obtain ⟨result, hresult⟩ := Option.isSome_iff_exists.mp h
  obtain ⟨signatures, hop, hfound⟩ := Option.bind_eq_some_iff.mp hresult
  obtain ⟨s, hs, -⟩ := Option.map_eq_some_iff.mp hfound
  have htypes : s.parameters.map Parameter.type = [a.symbol, b.symbol] := by
    simpa using List.find?_some hs
  have hsame := hall _ (Prelude.mem_of_overloads? hop) s (List.mem_of_find?_eq_some hs)
  have hmem : ∀ x ∈ [a.symbol, b.symbol], ∃ p ∈ s.parameters, p.type = x := by
    rw [← htypes]
    exact fun x hx => List.mem_map.mp hx
  obtain ⟨p, hp, hpa⟩ := hmem a.symbol (by simp)
  obtain ⟨q, hq, hqb⟩ := hmem b.symbol (by simp)
  exact Builtin.symbol_injective (hpa.symm.trans ((hsame p hp q hq).trans hqb))

theorem exists_overloads_of_unaryOperand? (h : unaryOperand? op = some expects) :
    ∃ signatures, Prelude.overloads? op = some signatures := by
  unfold unaryOperand? at h
  split at h <;> cases h <;> exact ⟨_, rfl⟩

theorem exists_overloads_of_ofName? {o : Operator} (h : Operator.ofName? op = some o) :
    ∃ signatures, Prelude.overloads? op = some signatures := by
  rw [← Operator.name_of_ofName? h]
  cases o <;> exact ⟨_, rfl⟩

def signError (operand : Expr) : Diagnostic := ⟨operand.span, .expectedTypeCode TypeCode.int.text⟩

theorem typeErrors_unary (hexpects : unaryOperand? op = some expects)
    (hresult : ∀ v, (eval operand).1 = .known v → (Prelude.result? op [v.builtin]).isSome)
    (note mark : Mark) :
    (unary op expects operand.span (eval operand).1).2.filter (fun d => d.fault.isTypeError) =
      ([.call note (.ident mark op) [operand]].filterMap unsignedOperand?).map signError := by
  cases hc : (eval operand).1 with
  | notConst | failed => simp [unary, unsignedOperand?, hc]
  | known v =>
    cases hvalue : unaryValue? op v with
    | none =>
      obtain ⟨rfl, hop, hv⟩ := unsigned_of_result? hexpects (hresult v hc) hvalue
      simp [unary, hvalue, expected, unsignedOperand?_of_unsigned hc hop hv, signError,
        Fault.isTypeError]
    | some w => simp [unary, hvalue, unsignedOperand?_of_folded hc hvalue]

theorem typeErrors_binary {c d : Constant}
    (hresult : ∀ o a b, Operator.ofName? op = some o → c = .known a → d = .known b →
      (Prelude.result? op [a.builtin, b.builtin]).isSome) (span right : Span) :
    (binary op span right c d).2.filter (fun d => d.fault.isTypeError) = [] := by
  unfold binary
  split
  · rfl
  · rfl
  · rfl
  · rfl
  · rfl
  next a b =>
    split
    · rfl
    next o ho =>
      have hbuiltin := eq_of_result? (hresult o a b ho rfl rfl)
      have hcode : b.code = a.code := by
        cases a <;> cases b <;> first | rfl | cases hbuiltin
      split
      · rfl
      · rw [if_neg (not_not.mpr hcode)]
        split <;> rfl

end Constant

namespace Inference

variable {g : TypeGraph} {scope : Scope Declaration} {note mark : Mark} {target e : Expr}
  {arguments : List Expr}

theorem Sound.argument {a : Expr} (h : Sound g scope (.call note target arguments))
    (ha : a ∈ arguments) : Sound g scope a := by
  intro x hx
  apply h x
  rw [Node.postorder, List.mem_append, List.mem_append]
  exact .inl (.inr (Tree.mem_postorderOf.mpr ⟨a, ha, hx⟩))

theorem Sound.isSome_result? {signatures : List Signature} {operands : List Builtin}
    (h : Sound Prelude.graph Prelude.scope (.call note (.ident mark op) arguments))
    (hop : Prelude.overloads? op = some signatures)
    (harguments : List.Forall₂ (OperandOf Prelude.graph Prelude.scope) arguments operands) :
    (Prelude.result? op operands).isSome := by
  have hpositional : ∀ a ∈ arguments, a.argumentName? = none := by
    intro a ha
    obtain ⟨b, hb⟩ := OperandOf.exists_of_mem harguments ha
    exact hb.positional
  obtain ⟨symbol, hsymbol⟩ := h _ (Tree.mem_postorder_self _)
  cases hresult : Prelude.result? op operands with
  | some result => rfl
  | none =>
    rw [reading?_call_operator (.refl _) hop rfl hpositional (map_typeIn? (.refl _) harguments),
      hresult] at hsymbol
    cases hsymbol

/-- The type errors that the evaluator reports on an expression without faults. -/
theorem Sound.typeErrors_eq (h : Sound Prelude.graph Prelude.scope e) :
    (Constant.eval e).2.filter (fun d => d.fault.isTypeError) =
      ((Constant.visited e).filterMap Constant.unsignedOperand?).map Constant.signError := by
  have hknown : ∀ {e v}, (Constant.eval e).1 = .known v →
      OperandOf Prelude.graph Prelude.scope e v.builtin := fun hv =>
    operandOf_of_known (.refl _) (fun _ _ => rfl) hv
  induction e using Constant.eval.induct with
  | case1 note value => rfl
  | case2 note mark op operand hnone =>
    have hop : ¬(op = "+" ∨ op = "-") := by
      rintro (rfl | rfl) <;> cases hnone
    simp [Constant.eval, Constant.visited, Constant.unsignedOperand?, hnone, hop]
  | case3 note mark op operand expects hexpects ih =>
    obtain ⟨signatures, hop⟩ := Constant.exists_overloads_of_unaryOperand? hexpects
    have hresult : ∀ v, (Constant.eval operand).1 = .known v →
        (Prelude.result? op [v.builtin]).isSome := fun v hv =>
      h.isSome_result? hop (.cons (hknown hv) .nil)
    have hself := Constant.typeErrors_unary hexpects hresult note mark
    simp only [Constant.eval, Constant.visited, hexpects, List.filter_append, List.filterMap_append,
      List.map_append, ih (h.argument List.mem_cons_self), hself]
  | case4 note mark op left right ihl ihr =>
    have hresult : ∀ o a b, Operator.ofName? op = some o → (Constant.eval left).1 = .known a →
        (Constant.eval right).1 = .known b → (Prelude.result? op [a.builtin, b.builtin]).isSome := by
      intro o a b ho ha hb
      obtain ⟨signatures, hop⟩ := Constant.exists_overloads_of_ofName? ho
      exact h.isSome_result? hop (.cons (hknown ha) (.cons (hknown hb) .nil))
    have hself := Constant.typeErrors_binary hresult note.span right.span
    simp only [Constant.eval, Constant.visited, List.filter_append, List.filterMap_append,
      List.map_append, ihl (h.argument List.mem_cons_self), hself,
      ihr (h.argument (List.mem_cons_of_mem _ List.mem_cons_self))]
    rfl
  | case5 e hliteral hunary hbinary =>
    have hnone : Constant.unsignedOperand? e = none := by
      rw [Constant.unsignedOperand?]
      exact hunary
    rw [Constant.eval, Constant.visited]
    · simp [hnone]
    all_goals assumption

theorem sound_of_reports_eq_nil (hread : ∀ x : Expr, ∃ v, reading? g scope x = some v)
    (h : (rulings g scope e.postorder).flatMap Ruling.reports = []) : Sound g scope e := by
  intro x hx
  obtain ⟨⟨symbol, fault⟩, hv⟩ := hread x
  have hreports := List.flatMap_eq_nil_iff.mp h ⟨x, ⟨symbol, fault⟩⟩ (mem_rulings.mpr ⟨hx, hv⟩)
  cases fault with
  | none => exact ⟨symbol, hv⟩
  | some fault => simp [Ruling.reports] at hreports

theorem infer_prelude (hnodup : (e.postorder.map Node.id).Nodup) :
    (infer (.initial Prelude.graph Prelude.scope) e).2 = .ok () ∧
      (infer (.initial Prelude.graph Prelude.scope) e).1.diagnostics =
        (rulings Prelude.graph Prelude.scope e.postorder).flatMap Ruling.reports := by
  have hfresh : (State.initial Prelude.graph Prelude.scope).Fresh e.postorder :=
    ⟨hnodup, fun _ _ => rfl, nofun⟩
  obtain ⟨v, hv, -⟩ := exists_reading_prelude e
  obtain ⟨calls, hinfer⟩ := infer_eq_learn hfresh hv
  rw [hinfer]
  exact ⟨rfl, List.nil_append _⟩

/-- Where inference in the prelude finds no fault with an expression, the type errors that the evaluator
reports are those about signs before constants of an unsigned type, one for each. -/
theorem typeErrors_eq_signErrors {e : Expr} {s : State} (hnodup : (e.postorder.map Node.id).Nodup)
    (hinfer : infer (.initial Prelude.graph Prelude.scope) e = (s, .ok ()))
    (hclean : s.diagnostics = []) :
    (Constant.eval e).2.filter (fun d => d.fault.isTypeError) =
      ((Constant.visited e).filterMap Constant.unsignedOperand?).map Constant.signError := by
  have hdiagnostics := (infer_prelude hnodup).2
  rw [hinfer, hclean] at hdiagnostics
  have hread : ∀ x : Expr, ∃ v, reading? Prelude.graph Prelude.scope x = some v := by
    intro x
    obtain ⟨v, hv, -⟩ := exists_reading_prelude x
    exact ⟨v, hv⟩
  exact (sound_of_reports_eq_nil hread hdiagnostics.symm).typeErrors_eq

def negatedByte : Expr :=
  .call ⟨⟨2⟩, default⟩ (.ident ⟨⟨0⟩, default⟩ "-") [.literal ⟨⟨1⟩, default⟩ (.byte 1)]

/-- The negation of a `Byte` is inferred without a fault, and the evaluator expects an `Int` there. -/
theorem typeErrors_eq_signErrors_negatedByte :
    ∃ s, infer (.initial Prelude.graph Prelude.scope) negatedByte = (s, .ok ()) ∧
      s.diagnostics = [] ∧ (Constant.eval negatedByte).2.filter (fun d => d.fault.isTypeError) =
        [⟨default, .expectedTypeCode "Int"⟩] := by
  have hnodup : (negatedByte.postorder.map Node.id).Nodup := by decide
  obtain ⟨hok, hdiagnostics⟩ := infer_prelude hnodup
  have hone : OperandOf Prelude.graph Prelude.scope (.literal ⟨⟨1⟩, default⟩ (.byte 1)) .byte :=
    operandOf_of_known (v := .byte 1) (.refl _) (fun _ _ => rfl) rfl
  have hcall : OperandOf Prelude.graph Prelude.scope negatedByte .byte :=
    .call (.refl _) rfl (fun _ _ => rfl) (.cons hone .nil)
  rw [hcall.sound.reports_eq_nil] at hdiagnostics
  exact ⟨_, Prod.ext rfl hok, hdiagnostics, typeErrors_eq_signErrors hnodup (Prod.ext rfl hok)
    hdiagnostics⟩

end Inference
end Binder
