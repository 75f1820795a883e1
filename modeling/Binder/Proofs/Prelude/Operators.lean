import Binder.Proofs.Inference.Reading
import Binder.Proofs.TypeGraph.Unfilled
import Mathlib.Data.List.Find

/-! Calls of primitive operators. In every graph that has grown from the prelude, a call of an operator on
operands of builtin types gets the result of the overload whose parameters have just these types, and
it is a fault if there is none. -/
namespace Binder

open Binder.Tree (Node)

variable {α : Type} {g : TypeGraph} {scope : Scope Declaration} {op : String}
  {signatures : List Signature} {operands : List Builtin}

namespace Builtin

def type (b : Builtin) : TypeId := ⟨b.symbol.index⟩

theorem symbol_injective {a b : Builtin} (h : a.symbol = b.symbol) : a = b := by
  revert h
  cases a <;> cases b <;> decide

variable (hg : Prelude.graph.Grows g)
include hg

theorem bound?_symbol (b : Builtin) : g.bound? b.symbol = some b.type := by
  apply hg.bound
  cases b <;> rfl

theorem exists_def? (b : Builtin) :
    ∃ d, g.def? b.type = some d ∧ d.symbol = b.symbol ∧ d.kind = .record ∧ d.signatures = [] := by
  have hd : ∃ d, Prelude.graph.def? b.type = some d ∧ d.symbol = b.symbol ∧ d.kind = .record ∧
      d.signatures = [] := by
    cases b <;> exact ⟨_, rfl, rfl, rfl, rfl⟩
  obtain ⟨d, hd, hsymbol⟩ := hd
  exact ⟨d, hg.defs hd, hsymbol⟩

theorem symbolOf_type (b : Builtin) : g.symbolOf b.type = b.symbol := by
  obtain ⟨d, hd, hsymbol, -⟩ := b.exists_def? hg
  rw [TypeGraph.symbolOf_eq hd, hsymbol]

theorem isErrorType_type (b : Builtin) : g.isErrorType b.type = false := by
  obtain ⟨d, hd, -, hkind, -⟩ := b.exists_def? hg
  simp [TypeGraph.isErrorType, hd, TypeDef.isError, hkind]

theorem sameType_symbol (a b : Builtin) : g.sameType a.symbol b.symbol = decide (a = b) := by
  have hkind : ∀ b : Builtin, g.kind? b.type = some .record := by
    intro b
    obtain ⟨d, hd, -, hkind, -⟩ := b.exists_def? hg
    rw [TypeGraph.kind?, hd, Option.map_some, hkind]
  by_cases hab : a = b
  · simp [TypeGraph.sameType, TypeGraph.nestingDepth, TypeGraph.sameWithin, hab]
  · have hsymbol : a.symbol ≠ b.symbol := fun h => hab (symbol_injective h)
    have htype : a.type ≠ b.type := by
      intro h
      apply hsymbol
      exact congrArg SymbolId.mk (TypeId.mk.inj h)
    simp [TypeGraph.sameType, TypeGraph.nestingDepth, TypeGraph.sameWithin, hab, hsymbol, htype,
      bound?_symbol hg, hkind]

end Builtin

namespace Prelude

/-- The overloads of a primitive operator. -/
def overloads? (op : String) : Option (List Signature) := operators.lookup op

/-- The result of an operator on operands of the given types. -/
def result? (op : String) (operands : List Builtin) : Option SymbolId :=
  (overloads? op).bind fun signatures => (signatures.find? fun s =>
    s.parameters.map Parameter.type = operands.map Builtin.symbol).map Signature.result

theorem mem_of_overloads? (h : overloads? op = some signatures) : (op, signatures) ∈ operators := by
  obtain ⟨l₁, l₂, heq, -⟩ := List.lookup_eq_some_iff.mp h
  rw [heq]
  exact List.mem_append_right _ List.mem_cons_self

theorem def?_eq (i : Nat) : graph.def? ⟨i⟩ =
    entries[i]?.map fun e => { symbol := ⟨i⟩, kind := e.2.1, signatures := e.2.2 } := by
  simp only [TypeGraph.def?, graph, List.getElem?_toArray, List.getElem?_map, List.getElem?_zipIdx]
  cases entries[i]? <;> simp

theorem typeOf?_operator {i : Nat} (hi : operators[i]? = some (op, signatures)) :
    graph.bound? ⟨firstOperator + i⟩ = some ⟨firstOperator + i⟩ ∧
      graph.def? ⟨firstOperator + i⟩ =
        some { symbol := ⟨firstOperator + i⟩, kind := .record, signatures := signatures } := by
  have hentry : entries[firstOperator + i]? = some ("", .record, signatures) := by
    have hlt : i < operators.length := (List.getElem?_eq_some_iff.mp hi).1
    rw [entries, List.getElem?_append_left (by simp [firstOperator, hlt]),
      List.getElem?_append_right (by simp [firstOperator])]
    simp [firstOperator, hi]
  constructor
  · have hlt := (List.getElem?_eq_some_iff.mp hentry).1
    rw [bound?_graph, if_pos (by simpa [graph] using hlt)]
  · rw [def?_eq, hentry]
    rfl

theorem exists_operator (h : overloads? op = some signatures) :
    ∃ m t d, Prelude.scope.find? op = some (.value m) ∧ graph.bound? m.type = some t ∧
      graph.def? t = some d ∧ d.signatures = signatures ∧ d.kind = .record := by
  obtain ⟨i, hi⟩ := List.getElem?_of_mem (mem_of_overloads? h)
  obtain ⟨hbound, hdef⟩ := typeOf?_operator hi
  have hmem : Declaration.value ⟨op, ⟨firstOperator + i⟩, .value⟩ ∈ declarations := by
    apply List.mem_append_right
    rw [List.mem_map]
    exact ⟨((op, signatures), i), List.mem_zipIdx_iff_getElem?.mpr hi, rfl⟩
  have hnames : (declarations.map Named.name).Nodup := by decide
  refine ⟨⟨op, ⟨firstOperator + i⟩, .value⟩, _, _, ?_, hbound, hdef, rfl, rfl⟩
  rw [Prelude.scope, Scope.find?_ofList]
  exact lookup?_of_mem hnames hmem

/-- The parameters of operators have builtin types, and no argument can be left out. -/
theorem parameter_of_overloads? (h : overloads? op = some signatures) {s : Signature}
    (hs : s ∈ signatures) {p : Parameter} (hp : p ∈ s.parameters) :
    p.fallback.isNone ∧ ∃ b : Builtin, p.type = b.symbol := by
  have hall : operators.all fun entry => entry.2.all fun s => s.parameters.all fun p =>
      p.fallback.isNone && Builtin.all.any fun b => p.type = b.symbol := by decide
  have hmem := mem_of_overloads? h
  simp only [List.all_eq_true, Bool.and_eq_true, List.any_eq_true, decide_eq_true_eq] at hall
  obtain ⟨hfallback, b, -, hb⟩ := hall _ hmem s hs p hp
  exact ⟨hfallback, b, hb⟩

end Prelude

namespace Overload

theorem takes_builtin (hg : Prelude.graph.Grows g) {parameters : List Parameter}
    (h : ∀ p ∈ parameters, p.fallback.isNone ∧ ∃ b : Builtin, p.type = b.symbol) :
    takes g parameters (operands.map Builtin.type) =
      decide (parameters.map Parameter.type = operands.map Builtin.symbol) := by
  induction parameters generalizing operands with
  | nil => cases operands <;> simp [takes]
  | cons p rest ih =>
    obtain ⟨hfallback, b, hb⟩ := h p List.mem_cons_self
    have hrest : ∀ q ∈ rest, q.fallback.isNone ∧ ∃ b : Builtin, q.type = b.symbol :=
      fun q hq => h q (List.mem_cons_of_mem p hq)
    cases operands with
    | nil =>
      have hnone : p.fallback = none := Option.isNone_iff_eq_none.mp hfallback
      simp [takes, hnone]
    | cons a operands =>
      have hsymbol : a.symbol = b.symbol ↔ a = b := ⟨Builtin.symbol_injective, congrArg _⟩
      simp only [List.map_cons, takes, hb, a.symbolOf_type hg, Builtin.sameType_symbol hg, ih hrest,
        List.cons.injEq, Bool.decide_and, eq_comm (a := b), eq_comm (a := b.symbol), hsymbol]

theorem unused_nil (parameters : List Parameter) : unused parameters [] = parameters := by
  simp [unused, List.zipIdx_map_fst]

theorem split_positional (types : List TypeId) :
    let given := (List.replicate types.length (none : Option String)).zip types
    (given.filterMap fun a => a.1.map fun name => (name, a.2)) = [] ∧
      (given.filterMap fun a => if a.1.isNone then some a.2 else none) = types := by
  induction types with
  | nil => exact ⟨rfl, rfl⟩
  | cons t rest ih => simpa [List.replicate_succ] using ih

theorem signature?_operator (hg : Prelude.graph.Grows g)
    (hop : Prelude.overloads? op = some signatures) {t : TypeId} {d : TypeDef}
    (hd : g.def? t = some d) (hsignatures : d.signatures = signatures) (operands : List Builtin) :
    (signature? g (List.replicate operands.length none) t (operands.map Builtin.type)).map
      Signature.result = Prelude.result? op operands := by
  have hsplit := split_positional (operands.map Builtin.type)
  rw [List.length_map] at hsplit
  have hfind : signatures.find? (fun s => accepts g s [] (operands.map Builtin.type)) =
      signatures.find? fun s =>
        decide (s.parameters.map Parameter.type = operands.map Builtin.symbol) := by
    apply List.find?_congr
    intro s hs
    simp only [accepts, placeNamed, unused_nil]
    exact takes_builtin hg fun p hp => Prelude.parameter_of_overloads? hop hs hp
  rw [signature?, select?, hsplit.1, hsplit.2, hd, Option.map_some, Option.getD_some, hsignatures,
    hfind, Prelude.result?, hop, Option.bind_some]

end Overload

namespace Inference

variable {t : TypeId} {mark : α} {e : Node α} {es : List (Node α)}

theorem typeIn?_operator (hg : Prelude.graph.Grows g) {m : Member}
    (hscope : scope.find? op = some (.value m)) (hm : Prelude.graph.bound? m.type = some t) :
    typeIn? g scope (.ident mark op : Node α) = some t :=
  typeIn?_eq_some.mpr ⟨⟨m.type, none⟩, by rw [reading?, Verdict.ofName, hscope], hg.bound hm⟩

theorem reading?_call_operator (hg : Prelude.graph.Grows g)
    (hop : Prelude.overloads? op = some signatures)
    (hscope : scope.find? op = Prelude.scope.find? op) {note : α} {arguments : List (Node α)}
    (hpositional : ∀ a ∈ arguments, a.argumentName? = none)
    (hoperands : arguments.map (typeIn? g scope) = operands.map fun b => some b.type) :
    reading? g scope (.call note (.ident mark op) arguments) =
      some (((Prelude.result? op operands).map (⟨·, none⟩)).getD (.rejected .noMatchingSignature)) := by
  obtain ⟨m, t, d, hm, hbound, hd, hsignatures, hkind⟩ := Prelude.exists_operator hop
  have hlength : arguments.length = operands.length := by
    simpa using congrArg List.length hoperands
  have hnames : arguments.map Node.argumentName? = List.replicate operands.length none := by
    rw [List.eq_replicate_iff]
    refine ⟨by rw [List.length_map, hlength], ?_⟩
    intro name hname
    obtain ⟨a, ha, rfl⟩ := List.mem_map.mp hname
    exact hpositional a ha
  have hreadings : readings? g scope (.ident mark op :: arguments) =
      some (t :: operands.map Builtin.type) := by
    rw [readings?_eq_some, List.map_cons, List.map_cons, List.map_map,
      typeIn?_operator hg (hscope.trans hm) hbound, hoperands]
    rfl
  have herror : (t :: operands.map Builtin.type).any g.isErrorType = false := by
    rw [List.any_eq_false]
    intro u hu
    rcases List.mem_cons.mp hu with rfl | hu
    · simp [TypeGraph.isErrorType, hg.defs hd, TypeDef.isError, hkind]
    · obtain ⟨b, -, rfl⟩ := List.mem_map.mp hu
      simp [b.isErrorType_type hg]
  have hsome : signatures.isEmpty = false := by
    have hall : ∀ entry ∈ Prelude.operators, entry.2.isEmpty = false := by decide
    exact hall _ (Prelude.mem_of_overloads? hop)
  have hsignature := Overload.signature?_operator hg hop (hg.defs hd) hsignatures operands
  rw [reading?_call, hreadings, Option.map_some, hnames]
  simp only [Verdict.ofCall, herror, hg.defs hd, Option.map_some, Option.getD_some, hsignatures, hsome,
    Bool.false_eq_true, ↓reduceIte]
  rw [← hsignature]
  cases Overload.signature? g (List.replicate operands.length none) t (operands.map Builtin.type) <;> rfl

/-- The symbol of a verdict in the prelude is one of the prelude's. -/
theorem Verdict.rejected_le (fault : Fault) : (rejected fault).symbol.index ≤ Prelude.error.index :=
  Nat.le_refl _

theorem Verdict.ofName_le (name : String) :
    (ofName Prelude.scope name).symbol.index ≤ Prelude.error.index := by
  unfold ofName
  split
  next m hm => exact Nat.le_of_lt (Prelude.symbol_lt_of_mem (Scope.mem_of_find? hm))
  next => exact rejected_le _
  next => exact rejected_le _

theorem Verdict.ofMember_le (member : String) (t : TypeId) :
    (ofMember Prelude.graph member t).symbol.index ≤ Prelude.error.index := by
  unfold ofMember
  split
  · exact Nat.le_refl _
  · split
    next m hm =>
      obtain ⟨d, hd, hfind⟩ := Option.bind_eq_some_iff.mp hm
      obtain ⟨-, -, -, huses⟩ := Prelude.def?_graph hd
      exact Nat.le_of_lt (huses _ (TypeDef.member_mem_uses hfind))
    next => exact rejected_le _

theorem Verdict.ofCall_le (names : List (Option String)) (types : List TypeId) :
    (ofCall Prelude.graph names types).symbol.index ≤ Prelude.error.index := by
  unfold ofCall
  split
  · exact Nat.le_refl _
  next target arguments =>
    split
    · exact Nat.le_refl _
    · split
      · exact rejected_le _
      · split
        next signature hsignature =>
          have hmem := List.mem_of_find?_eq_some hsignature
          cases hd : Prelude.graph.def? target with
          | none => simp [hd] at hmem
          | some d =>
            rw [hd] at hmem
            obtain ⟨-, -, -, huses⟩ := Prelude.def?_graph hd
            have huse : signature.result ∈ signature.uses := List.mem_cons_self
            exact Nat.le_of_lt (huses _ (TypeDef.signature_mem_uses hmem huse))
        next => exact rejected_le _

theorem readings?_cons {ts : List TypeId}
    (ht : typeIn? g scope e = some t) (hts : readings? g scope es = some ts) :
    readings? g scope (e :: es) = some (t :: ts) := by
  rw [readings?_eq_some] at hts ⊢
  rw [List.map_cons, List.map_cons, ht, hts]

theorem exists_readings? (h : ∀ e ∈ es, ∃ t, typeIn? g scope e = some t) :
    ∃ ts, readings? g scope es = some ts := by
  induction es with
  | nil => exact ⟨[], rfl⟩
  | cons e es ih =>
    rw [List.forall_mem_cons] at h
    obtain ⟨t, ht⟩ := h.1
    obtain ⟨ts, hts⟩ := ih h.2
    exact ⟨t :: ts, readings?_cons ht hts⟩

theorem typeIn?_prelude (h : ∃ v, reading? Prelude.graph Prelude.scope e = some v ∧
    v.symbol.index ≤ Prelude.error.index) : ∃ t, typeIn? Prelude.graph Prelude.scope e = some t := by
  obtain ⟨v, hv, hle⟩ := h
  have hlt : v.symbol.index < Prelude.graph.symbols.size := Nat.lt_of_le_of_lt hle (by decide)
  refine ⟨⟨v.symbol.index⟩, typeIn?_eq_some.mpr ⟨v, hv, ?_⟩⟩
  rw [Prelude.bound?_graph, if_pos hlt]

/-- Every expression can be read off the prelude. -/
theorem exists_reading_prelude (e : Node α) :
    ∃ v, reading? Prelude.graph Prelude.scope e = some v ∧ v.symbol.index ≤ Prelude.error.index := by
  induction e using Tree.operands_induction with | h e ih => ?_
  cases e with
  | literal _ value =>
    refine ⟨_, rfl, ?_⟩
    simp only [Prelude.literalType]
    cases Builtin.ofLiteral value <;> decide
  | ident _ name => exact ⟨_, rfl, Verdict.ofName_le name⟩
  | selection _ target member =>
    obtain ⟨t, ht⟩ := typeIn?_prelude (ih target List.mem_cons_self)
    rw [reading?_selection, ht]
    exact ⟨_, rfl, Verdict.ofMember_le member t⟩
  | call _ target arguments =>
    obtain ⟨ts, hts⟩ := exists_readings? fun x hx => typeIn?_prelude (ih x hx)
    rw [Node.operands] at hts
    rw [reading?_call, hts]
    exact ⟨_, rfl, Verdict.ofCall_le _ _⟩
  | namedArgument _ _ value =>
    obtain ⟨v, hv, hle⟩ := ih value List.mem_cons_self
    rw [reading?, hv]
    exact ⟨_, rfl, hle⟩
  | _ => exact ⟨_, rfl, Verdict.rejected_le _⟩

end Inference
end Binder
