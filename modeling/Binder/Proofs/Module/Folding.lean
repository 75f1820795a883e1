import Binder.Proofs.Constant.Typing
import Binder.Proofs.Module.Names
import Binder.Proofs.Module.Soundness

/-! The constants of a module. Folding looks at the text of an initialiser and not at what its names mean:
it takes the name of a primitive operator for that operator even where the module has declared a value
or a type of its own under the name. -/
namespace Binder

open Binder.Tree (Expr)

namespace Context

variable {i m c : Context} {s : Inference.State} {bindings : List Expr} {names : List String}
  {v : ModuleValue} {e : Expr}

theorem Built.isError_eq (h : Built m s c) {V : List SymbolId} {D : Prop} (hs : s.Ready V D [])
    (x : SymbolId) : c.graph.isError x = s.graph.isError x := by
  cases hx : s.graph.bound? x with
  | some t =>
    rw [TypeGraph.isError_eq_isErrorType hx, TypeGraph.isError_eq_isErrorType (h.grows.bound hx),
      TypeGraph.isErrorType_eq h.grows (hs.tidy.graph.types hx)]
  | none =>
    obtain ⟨name, d, -, hkind, -, hgraph⟩ := h.graph
    have hbefore : s.graph.isError x = false := by simp [TypeGraph.isError, TypeGraph.typeOf?, hx]
    rw [hbefore, hgraph, TypeGraph.isError, TypeGraph.typeOf?, TypeGraph.bound?_newType,
      TypeGraph.bound?_newSymbol, hx]
    split
    · simp [TypeGraph.def?_newType, TypeDef.isError, hkind]
    · rfl

theorem fst_of_recorded? {entry : String × Constant} (h : c.recorded? v = some entry) :
    entry.1 = v.member.name := by
  obtain ⟨e, -, hentry⟩ := Option.bind_eq_some_iff.mp h
  split at hentry
  · cases hentry
    rfl
  · cases hentry

theorem lookup_recorded? {values : List ModuleValue}
    (hnames : (values.map fun v => v.member.name).Nodup) (hv : v ∈ values) :
    (values.filterMap c.recorded?).lookup v.member.name = (c.recorded? v).map Prod.snd := by
  induction values with
  | nil => cases hv
  | cons w values ih =>
    rw [List.map_cons, List.nodup_cons] at hnames
    obtain ⟨hw, hnames⟩ := hnames
    rcases List.mem_cons.mp hv with rfl | hv
    · cases hrecorded : c.recorded? v with
      | some entry =>
        have hname := fst_of_recorded? hrecorded
        rw [List.filterMap_cons_some hrecorded, List.lookup_cons, ← hname]
        simp
      | none =>
        rw [List.filterMap_cons_none hrecorded, Option.map_none, List.lookup_eq_none_iff]
        intro entry hentry
        obtain ⟨u, hu, hrecord⟩ := List.mem_filterMap.mp hentry
        have hne : v.member.name ≠ u.member.name := fun heq =>
          hw (heq ▸ List.mem_map_of_mem (f := fun v => v.member.name) hu)
        simpa [fst_of_recorded? hrecord] using hne
    · have hne : v.member.name ≠ w.member.name := fun heq =>
        hw (heq ▸ List.mem_map_of_mem (f := fun v => v.member.name) hv)
      cases hrecorded : c.recorded? w with
      | some entry =>
        have hname := fst_of_recorded? hrecorded
        rw [List.filterMap_cons_some hrecorded, List.lookup_cons, hname, beq_false_of_ne hne]
        exact ih hnames hv
      | none =>
        rw [List.filterMap_cons_none hrecorded]
        exact ih hnames hv

/-- A name means the same as in the prelude exactly if no binding defines it. -/
theorem Named.find?_eq_iff (h : c.Named names) (name : String) :
    c.rootScope.find? name = Prelude.scope.find? name ↔ name ∉ names := by
  constructor
  · intro heq hname
    obtain ⟨d, hd, hown⟩ := h.defined name hname
    have hprelude := Prelude.symbol_lt_of_mem (Scope.mem_of_find? (heq ▸ hd))
    have hlt : Prelude.error.index < Prelude.graph.symbols.size := by decide
    omega
  · exact h.undefined name

theorem Completed.constant?_eq_some_iff (h : Completed bindings i m s c) (hnamed : m.Named names)
    (hv : v ∈ c.values) (he : v.definition.value = some e) (k : Constant) :
    c.constant? v.member.name = some k ↔ k = (Constant.eval e).1 ∧ k.isConst = true ∧
      v.member.isMutable = false ∧
      ∃ type, c.inference.typeOf? e.id = some type ∧ c.graph.isError type = false := by
  rw [h.built.values] at hv
  have hrecorded : (m.concluded s).recorded? v = if v.member.isMutable = false ∧
      (c.inference.typeOf? e.id).any (fun type => !c.graph.isError type) ∧
        (Constant.eval e).1.isConst then some (v.member.name, (Constant.eval e).1) else none := by
    have hany : ∀ type, c.graph.isError type = s.graph.isError type :=
      h.built.isError_eq h.concludes.ready
    simp only [recorded?, he, Option.bind_some, h.typeOf?_eq, hany]
    rfl
  rw [constant?, h.built.constants, hnamed.constants, List.nil_append,
    lookup_recorded? hnamed.distinct hv, hrecorded]
  simp only [Option.any_eq_true, Bool.not_eq_true']
  split
  next hall =>
    obtain ⟨hmutable, htype, hconst⟩ := hall
    rw [Option.map_some, Option.some.injEq]
    constructor
    · rintro rfl
      exact ⟨rfl, hconst, hmutable, htype⟩
    · rintro ⟨rfl, -⟩
      rfl
  next hnot =>
    rw [Option.map_none]
    constructor
    · intro h
      cases h
    · rintro ⟨rfl, hconst, hmutable, htype⟩
      exact absurd ⟨hmutable, htype, hconst⟩ hnot

/-- The constant of a value is what its initialiser folds to, as soon as that has a type and the value is
immutable; whether the operators that it calls are the prelude's is another matter: they are just if
no binding of the module defines one of their names. -/
theorem constant_and_operators_of_build {d : Document} {k k' : Nat} {root : Expr}
    (hroot : d.lower k = .ok root k') {name : String} {c : Context}
    (hc : c = ((initial name).build root).1) {v : ModuleValue} (hv : v ∈ c.values) {e : Expr}
    (he : v.definition.value = some e) :
    (∀ k, c.constant? v.member.name = some k ↔ k = (Constant.eval e).1 ∧ k.isConst = true ∧
      v.member.isMutable = false ∧
      ∃ type, c.inference.typeOf? e.id = some type ∧ c.graph.isError type = false) ∧
    (Prelude.ResolvedIn c.rootScope e ↔
      ∀ op ∈ e.calledOperators, op ∉ Tree.definedNames root.bindings) := by
  obtain ⟨i, m, s, hdone⟩ := exists_outcome_of_eq hroot hc
  have hnamed := hdone.named
  refine ⟨hdone.constant?_eq_some_iff hnamed hv he, ?_⟩
  have hscope : c.rootScope = m.rootScope := by rw [rootScope, hdone.built.root, rootScope]
  rw [Prelude.ResolvedIn, hscope]
  exact forall₂_congr fun op _ => hnamed.find?_eq_iff op

/-- A module with an addition of its own, and a value that is made by it. -/
def ownAddition : Document where
  bindings := [
    .definition none false "Adder" none (some (.typeLiteral none [.signature
      [.mk "a" (.ident none "Int") none, .mk "b" (.ident none "Int") none] (.ident none "String")])),
    .definition none false "+" (some (.ident none "Adder")) none,
    .definition none false "x" none (some (.call none (.ident none "+")
      [.literal none (.int 1), .literal none (.int 2)]))]

def ownRoot : Expr := ownAddition.root

/-- The value is recorded as the constant 3 although `+` is the module's own, which makes strings. -/
theorem constant_and_operators_of_build_ownAddition :
    ownAddition.lower 0 = .ok ownRoot 14 ∧ ∃ c v e, c = ((initial "main").build ownRoot).1 ∧
      v ∈ c.values ∧ v.definition.value = some e ∧ "+" ∈ e.calledOperators ∧
      c.constant? v.member.name = some (.known (.int 3)) ∧ (Constant.eval e).1 = .known (.int 3) ∧
      ¬Prelude.ResolvedIn c.rootScope e := by
  have hlower : ownAddition.lower 0 = .ok ownRoot 14 := rfl
  obtain ⟨c, hc⟩ : ∃ c, c = ((initial "main").build ownRoot).1 := ⟨_, rfl⟩
  have hfinal : ("x", some ["+"]) ∈ c.values.map (fun v =>
      (v.member.name, v.definition.value.map Tree.Node.calledOperators)) ∧
      c.constant? "x" = some (.known (.int 3)) := by
    rw [hc, Build.build_eq_evaluate]
    decide +kernel
  obtain ⟨hmem, hconstant⟩ := hfinal
  obtain ⟨v, hv, hx⟩ := List.mem_map.mp hmem
  obtain ⟨hname, hcalled⟩ := Prod.mk.inj hx
  obtain ⟨e, he, hoperators⟩ := Option.map_eq_some_iff.mp hcalled
  have hplus : "+" ∈ e.calledOperators := by simp [hoperators]
  obtain ⟨hrecorded, hresolved⟩ := constant_and_operators_of_build hlower hc hv he
  rw [← hname] at hconstant
  refine ⟨hlower, c, v, e, hc, hv, he, hplus, hconstant, ((hrecorded _).mp hconstant).1.symm, ?_⟩
  intro h
  exact hresolved.mp h "+" hplus (by decide)

end Context
end Binder
