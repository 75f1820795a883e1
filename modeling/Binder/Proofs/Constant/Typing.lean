import Binder.Constant.Fold
import Binder.Proofs.Inference.Eager
import Binder.Proofs.Prelude.Operators

/-! The types of constants. The evaluator and the prelude know the primitive operators each in their own
way. Wherever the evaluator finds a constant, the prelude has an overload for the same operands, and the
result of that overload is the builtin type of the constant, so that inference finds no fault. -/
namespace Binder

open Binder.Tree (Expr Mark Node)

variable {op : String} {v w : Value} {c : Builtin}

def Value.builtin : Value → Builtin
  | .boolean _ => .boolean
  | .byte _ => .byte
  | .double _ => .double
  | .float _ => .float
  | .int _ => .int
  | .long _ => .long
  | .null => .null
  | .rune _ => .rune
  | .string _ => .string
  | .uint _ => .uint

theorem Prelude.codeType_code (v : Value) : codeType v.code = v.builtin.symbol := by
  cases v <;> rfl

theorem Prelude.literalType_of_ofLiteral? {l : Tree.Literal} (h : Value.ofLiteral? l = some v) :
    literalType l = v.builtin.symbol := by
  cases l <;> cases h <;> rfl

theorem Value.builtin_eq_of_code (h : w.code = v.code) : w.builtin = v.builtin := by
  cases v <;> cases w <;> first | rfl | cases h

def Operator.name : Operator → String
  | .add => "+"
  | .sub => "-"
  | .mul => "*"
  | .div => "/"
  | .rem => "%"
  | .conj => "&"
  | .xor => "^"
  | .gt => ">"
  | .lt => "<"
  | .ge => ">="
  | .eq => "=="
  | .ne => "!="
  | .and => "and"
  | .or => "or"

theorem Operator.name_of_ofName? {o : Operator} (h : ofName? op = some o) : o.name = op := by
  unfold ofName? at h
  split at h <;> cases h <;> rfl

namespace Folded

variable {o : Operator} {α : Type}

/-- The prelude has the operator for two operands of a type, and the outcome has its result. A division
by zero keeps the dividend. -/
def Agrees (o : Operator) (operand : Builtin) : Folded → Prop
  | .value v => Prelude.result? o.name [operand, operand] = some v.builtin.symbol
  | .divideByZero => Prelude.result? o.name [operand, operand] = some operand.symbol
  | .notConst => True

theorem agrees_logical (a b : Bool) : (logical o a b).Agrees o .boolean := by
  cases o <;> first | exact rfl | trivial

theorem agrees_textual (a b : String) : (textual o a b).Agrees o .string := by
  cases o <;> first | exact rfl | trivial

theorem agrees_integral [Add α] [Sub α] [Mul α] [Div α] [Mod α] [AndOp α] [XorOp α]
    [OfNat α 0] [DecidableEq α] [LT α] [DecidableLT α] {wrap : α → Value}
    (hc : c ∈ [Builtin.byte, .int, .long]) (hwrap : ∀ x, (wrap x).builtin = c) (a b : α) :
    (integral wrap o a b).Agrees o c := by
  simp only [List.mem_cons, List.not_mem_nil, or_false] at hc
  rcases hc with rfl | rfl | rfl <;> cases o <;> simp only [integral] <;> try split
  all_goals simp only [Agrees, truth, hwrap] <;> rfl

theorem agrees_floating [Add α] [Sub α] [Mul α] [Div α] [OfNat α 0] [BEq α] [LT α]
    [DecidableLT α] [LE α] [DecidableLE α] {wrap : α → Value}
    (hc : c ∈ [Builtin.float, .double]) (hwrap : ∀ x, (wrap x).builtin = c) (a b : α) :
    (floating wrap o a b).Agrees o c := by
  simp only [List.mem_cons, List.not_mem_nil, or_false] at hc
  rcases hc with rfl | rfl <;> cases o <;> simp only [floating] <;> try split
  all_goals simp only [Agrees, truth, hwrap] <;> rfl

theorem agrees_ofValues (o : Operator) (v w : Value) : (ofValues o v w).Agrees o v.builtin := by
  unfold ofValues
  split
  · exact agrees_logical ..
  · exact agrees_integral (c := .byte) (by decide) (fun _ => rfl) ..
  · exact agrees_integral (c := .int) (by decide) (fun _ => rfl) ..
  · exact agrees_integral (c := .long) (by decide) (fun _ => rfl) ..
  · exact agrees_floating (c := .float) (by decide) (fun _ => rfl) ..
  · exact agrees_floating (c := .double) (by decide) (fun _ => rfl) ..
  · exact agrees_textual ..
  · trivial

end Folded

namespace Constant

variable {span : Span}

theorem result?_of_unaryValue? (h : unaryValue? op v = some w) :
    Prelude.result? op [v.builtin] = some w.builtin.symbol := by
  unfold unaryValue? at h
  split at h <;> cases h <;> rfl

theorem unary_eq_known {expects : TypeCode} {c : Constant}
    (h : (unary op expects span c).1 = .known w) : ∃ v, c = .known v ∧ unaryValue? op v = some w := by
  unfold unary at h
  split at h
  · cases h
  · cases h
  next v =>
    split at h
    next hvalue =>
      cases h
      exact ⟨v, rfl, hvalue⟩
    next => cases h

theorem binary_eq_known {right : Span} {c d : Constant}
    (h : (binary op span right c d).1 = .known w) : ∃ a b, c = .known a ∧ d = .known b ∧
      Prelude.result? op [a.builtin, b.builtin] = some w.builtin.symbol := by
  unfold binary at h
  split at h
  · cases h
  · cases h
  · cases h
  · cases h
  · cases h
  next a b =>
    split at h
    · cases h
    next o ho =>
      have hagrees := Folded.agrees_ofValues o a b
      split at h
      · cases h
      · split at h
        · cases h
        next hcode =>
          have hbuiltin : b.builtin = a.builtin := Value.builtin_eq_of_code (not_not.mp hcode)
          refine ⟨a, b, rfl, rfl, ?_⟩
          rw [hbuiltin, ← Operator.name_of_ofName? ho]
          split at h
          next hfold =>
            cases h
            rwa [hfold] at hagrees
          next hfold =>
            cases h
            rwa [hfold] at hagrees
          next => cases h

end Constant

/-- The primitive operators that are called by name in an expression. -/
def Tree.Node.calledOperators {α : Type} (e : Node α) : List String :=
  e.preorder.filterMap fun
    | .call _ (.ident _ op) _ => if (Prelude.overloads? op).isSome then some op else none
    | _ => none

namespace Tree

variable {α : Type} {note mark : α} {arguments : List (Node α)}

theorem mem_calledOperators_self {signatures : List Signature}
    (h : Prelude.overloads? op = some signatures) :
    op ∈ (Node.call note (.ident mark op) arguments).calledOperators := by
  rw [Node.calledOperators, List.mem_filterMap]
  exact ⟨_, mem_preorder_self _, by simp [h]⟩

theorem mem_calledOperators_argument {target a : Node α} (ha : a ∈ arguments)
    (h : op ∈ a.calledOperators) : op ∈ (Node.call note target arguments).calledOperators := by
  rw [Node.calledOperators, List.mem_filterMap] at h ⊢
  obtain ⟨x, hx, hop⟩ := h
  refine ⟨x, ?_, hop⟩
  rw [Node.preorder]
  exact List.mem_append_right _ (mem_preorderOf.mpr ⟨a, ha, hx⟩)

end Tree

/-- The scope has the prelude's operators under the names by which they are called. -/
def Prelude.ResolvedIn {α : Type} (scope : Scope Declaration) (e : Node α) : Prop :=
  ∀ op ∈ e.calledOperators, scope.find? op = Prelude.scope.find? op

theorem Prelude.ResolvedIn.argument {α : Type} {scope : Scope Declaration} {note : α}
    {target a : Node α} {arguments : List (Node α)}
    (h : ResolvedIn scope (.call note target arguments)) (ha : a ∈ arguments) : ResolvedIn scope a :=
  fun op hop => h op (Tree.mem_calledOperators_argument ha hop)

namespace Inference

variable {g : TypeGraph} {scope : Scope Declaration} {e : Expr} {arguments : List Expr}
  {operands : List Builtin} {b : Builtin}

/-- An expression and all its operands can be read off the graph, and nothing is at fault. -/
def Sound (g : TypeGraph) (scope : Scope Declaration) (e : Expr) : Prop :=
  ∀ x ∈ e.postorder, ∃ symbol, reading? g scope x = some ⟨symbol, none⟩

/-- What can be read off the graph about an operand of an operator: its builtin type. -/
structure OperandOf (g : TypeGraph) (scope : Scope Declaration) (e : Expr) (b : Builtin) : Prop where
  reading : reading? g scope e = some ⟨b.symbol, none⟩
  sound : Sound g scope e
  positional : e.argumentName? = none

theorem OperandOf.typeIn? (h : OperandOf g scope e b)
    (hg : Prelude.graph.Grows g) : typeIn? g scope e = some b.type :=
  typeIn?_eq_some.mpr ⟨_, h.reading, b.bound?_symbol hg⟩

theorem OperandOf.exists_of_mem {a : Expr}
    (h : List.Forall₂ (OperandOf g scope) arguments operands) (ha : a ∈ arguments) :
    ∃ b, OperandOf g scope a b := by
  obtain ⟨i, hi, rfl⟩ := List.getElem_of_mem ha
  exact ⟨_, h.get hi (h.length_eq ▸ hi)⟩

theorem map_typeIn? (hg : Prelude.graph.Grows g)
    (h : List.Forall₂ (OperandOf g scope) arguments operands) :
    arguments.map (typeIn? g scope) = operands.map fun b => some b.type := by
  induction h with
  | nil => rfl
  | cons h _ ih => rw [List.map_cons, List.map_cons, h.typeIn? hg, ih]

theorem OperandOf.call (hg : Prelude.graph.Grows g) {note mark : Mark}
    (hresult : Prelude.result? op operands = some b.symbol)
    (hresolved : Prelude.ResolvedIn scope (.call note (.ident mark op) arguments))
    (harguments : List.Forall₂ (OperandOf g scope) arguments operands) :
    OperandOf g scope (.call note (.ident mark op) arguments) b := by
  obtain ⟨signatures, hop, -⟩ := Option.bind_eq_some_iff.mp hresult
  have hscope := hresolved op (Tree.mem_calledOperators_self hop)
  obtain ⟨m, t, d, hm, -⟩ := Prelude.exists_operator hop
  have hpositional : ∀ a ∈ arguments, a.argumentName? = none := by
    intro a ha
    obtain ⟨b, hb⟩ := OperandOf.exists_of_mem harguments ha
    exact hb.positional
  have hreading : reading? g scope (.call note (.ident mark op) arguments) =
      some ⟨b.symbol, none⟩ := by
    rw [reading?_call_operator hg hop hscope hpositional (map_typeIn? hg harguments), hresult]
    rfl
  refine ⟨hreading, ?_, rfl⟩
  intro x hx
  simp only [Node.postorder, List.mem_append, List.mem_singleton, Tree.mem_postorderOf] at hx
  rcases hx with (rfl | ⟨a, ha, hx⟩) | rfl
  · refine ⟨m.type, ?_⟩
    rw [reading?, Verdict.ofName, hscope, hm]
  · obtain ⟨b, hb⟩ := OperandOf.exists_of_mem harguments ha
    exact hb.sound x hx
  · exact ⟨_, hreading⟩

theorem operandOf_of_known (hg : Prelude.graph.Grows g) (hscope : Prelude.ResolvedIn scope e)
    (h : (Constant.eval e).1 = .known v) :
    OperandOf g scope e v.builtin := by
  induction e using Constant.eval.induct generalizing v with
  | case1 note value =>
    cases hvalue : Value.ofLiteral? value with
    | none => simp [Constant.eval, hvalue, Constant.ofValue?] at h
    | some v =>
      simp only [Constant.eval, hvalue, Constant.ofValue?] at h
      cases h
      have hreading : reading? g scope (.literal note value) = some ⟨v.builtin.symbol, none⟩ := by
        rw [reading?, Prelude.literalType_of_ofLiteral? hvalue]
      refine ⟨hreading, ?_, rfl⟩
      intro x hx
      cases List.mem_singleton.mp hx
      exact ⟨_, hreading⟩
  | case2 note mark op operand hnone =>
    simp [Constant.eval, hnone] at h
  | case3 note mark op operand expects hexpects ih =>
    simp only [Constant.eval, hexpects] at h
    obtain ⟨a, ha, hvalue⟩ := Constant.unary_eq_known h
    have hoperand := ih (hscope.argument List.mem_cons_self) ha
    exact .call hg (Constant.result?_of_unaryValue? hvalue) hscope (.cons hoperand .nil)
  | case4 note mark op left right ihl ihr =>
    simp only [Constant.eval] at h
    obtain ⟨a, b, ha, hb, hresult⟩ := Constant.binary_eq_known h
    have hleft := ihl (hscope.argument List.mem_cons_self) ha
    have hright := ihr (hscope.argument (List.mem_cons_of_mem _ List.mem_cons_self)) hb
    exact .call hg hresult hscope (.cons hleft (.cons hright .nil))
  | case5 e hliteral hunary hbinary =>
    rw [Constant.eval] at h
    · cases h
    all_goals assumption

theorem Sound.reports_eq_nil (h : Sound g scope e) :
    (rulings g scope e.postorder).flatMap Ruling.reports = [] := by
  rw [List.flatMap_eq_nil_iff]
  intro r hr
  obtain ⟨hmem, hreading⟩ := mem_rulings.mp hr
  obtain ⟨symbol, hsymbol⟩ := h r.node hmem
  have hverdict : r.verdict = ⟨symbol, none⟩ := Option.some.inj (hreading.symm.trans hsymbol)
  simp [Ruling.reports, hverdict]

/-- What folds to a constant is inferred with success and without any report, and it gets the builtin
type of the constant, wherever the operators that it calls are the prelude's. -/
theorem infer_of_isConst {s : State} {e : Expr} (hgraph : Prelude.graph.Grows s.graph)
    (hfresh : s.Fresh e.postorder) (hscope : Prelude.ResolvedIn s.scope e)
    (hconst : (Constant.eval e).1.isConst = true) :
    ∃ s', infer s e = (s', .ok ()) ∧ s'.diagnostics = s.diagnostics ∧
      s'.typeOf? e.id = some (Prelude.codeType (Constant.eval e).1.code) := by
  cases hc : (Constant.eval e).1 with
  | failed | notConst =>
    rw [hc] at hconst
    cases hconst
  | known v =>
    have hoperand := operandOf_of_known hgraph hscope hc
    obtain ⟨calls, hinfer⟩ := infer_eq_learn hfresh hoperand.reading
    refine ⟨_, hinfer, ?_, ?_⟩
    · simp only [State.learn, hoperand.sound.reports_eq_nil, List.append_nil]
    · rw [State.typeOf?_learn_self hoperand.reading, Constant.code, Prelude.codeType_code]

/-- A division by zero below another operator: the quotient keeps the dividend. -/
def negatedQuotient : Expr :=
  .call ⟨⟨5⟩, default⟩ (.ident ⟨⟨0⟩, default⟩ "-")
    [.call ⟨⟨4⟩, default⟩ (.ident ⟨⟨1⟩, default⟩ "/")
      [.literal ⟨⟨2⟩, default⟩ (.int 7), .literal ⟨⟨3⟩, default⟩ (.int 0)]]

theorem infer_of_isConst_negatedQuotient :
    ∃ s', infer (.initial Prelude.graph Prelude.scope) negatedQuotient = (s', .ok ()) ∧
      s'.diagnostics = [] ∧ s'.typeOf? ⟨5⟩ = some Builtin.int.symbol := by
  have hfresh : (State.initial Prelude.graph Prelude.scope).Fresh negatedQuotient.postorder :=
    ⟨by decide, fun _ _ => rfl, nofun⟩
  exact infer_of_isConst (.refl _) hfresh (fun _ _ => rfl) (by decide)

end Inference
end Binder
