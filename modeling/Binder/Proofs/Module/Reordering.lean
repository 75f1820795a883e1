import Binder.Proofs.Module.Names
import Binder.Proofs.Module.Shape

/-! Modules whose bindings stand in another order, with their declarations in the same order. They
declare the same types under the same symbols, and their values have the same symbols, though not value
by value. -/
namespace Binder

open Binder.Tree (Expr Mark Node eraseMembers eraseOption)

variable {β α : Type} {t : TypeId} {p : Pairing}

namespace Tree

variable {α : Type}

/-- A binding that defines a value. -/
def Node.isDefinition : Node α → Bool
  | .definition _ false _ none (some (.typeLiteral _ _)) => false
  | .definition .. => true
  | _ => false

/-- A binding that is neither a definition nor an extension. -/
def Node.isExpression : Node α → Bool
  | .definition .. | .extension .. => false
  | _ => true

/-- The target and the members of a binding that extends a type. -/
def Node.extendedType? : Node α → Option (Node α × List (Member α))
  | .extension _ target members => some (target, members)
  | _ => none

/-- Bindings in another order; those that declare and extend types stay in theirs. -/
structure Reordered (bindings bindings' : List Expr) : Prop where
  perm : (bindings'.map Node.erase).Perm (bindings.map Node.erase)
  order : (bindings'.map Node.erase).filter Node.isDeclaration =
    (bindings.map Node.erase).filter Node.isDeclaration

namespace Reordered

variable {bindings bindings' : List Expr} {β γ : Type}

theorem symm (h : Reordered bindings bindings') : Reordered bindings' bindings :=
  ⟨h.perm.symm, h.order.symm⟩

theorem filterMap_eq (h : Reordered bindings bindings') {f : Expr → Option β}
    {g : Node Unit → Option γ} {shape : β → γ} (hf : ∀ e, g e.erase = (f e).map shape)
    (hg : ∀ e, e.isDeclaration = false → g e = none) :
    (bindings'.filterMap f).map shape = (bindings.filterMap f).map shape := by
  have hall : ∀ bindings : List Expr, (bindings.filterMap f).map shape =
      ((bindings.map Node.erase).filter Node.isDeclaration).filterMap g := by
    intro bindings
    rw [List.map_filterMap, List.filterMap_filter, List.filterMap_map]
    apply List.filterMap_congr
    intro e _
    simp only [Function.comp_apply]
    split
    · rw [hf]
    next hnot => rw [← hf, hg _ (Bool.eq_false_iff.mpr hnot)]
  rw [hall, hall, h.order]

theorem filterMap_perm (h : Reordered bindings bindings') {f : Expr → Option β}
    {g : Node Unit → Option γ} {shape : β → γ} (hf : ∀ e, g e.erase = (f e).map shape) :
    ((bindings'.filterMap f).map shape).Perm ((bindings.filterMap f).map shape) := by
  have hall : ∀ bindings : List Expr, (bindings.filterMap f).map shape =
      (bindings.map Node.erase).filterMap g := by
    intro bindings
    rw [List.map_filterMap, List.filterMap_map]
    apply List.filterMap_congr
    intro e _
    rw [Function.comp_apply, hf]
  rw [hall, hall]
  exact h.perm.filterMap g

end Reordered
end Tree

def Definition.shape (d : Definition) : Node Unit :=
  .definition () d.mutable d.name (eraseOption d.ascription) (eraseOption d.value)

theorem Definition.shape_eq_iff {d d' : Definition} : d'.shape = d.shape ↔
    d'.mutable = d.mutable ∧ d'.name = d.name ∧
      eraseOption d'.ascription = eraseOption d.ascription ∧
      eraseOption d'.value = eraseOption d.value := by
  simp [Definition.shape]

def Extension.shape (x : Extension) : Node Unit × List (Tree.Member Unit) :=
  (x.target.erase, eraseMembers x.members)

theorem forall₂_of_map_eq {γ : Type} {f : α → γ} {g : β → γ} {l : List α} {l' : List β}
    (h : l.map f = l'.map g) : List.Forall₂ (fun a b => f a = g b) l l' := by
  have heq := List.forall₂_eq_eq_eq ▸ h
  rwa [List.forall₂_map_left_iff, List.forall₂_map_right_iff] at heq

theorem forall₂_and {R S : α → β → Prop} {l : List α} {l' : List β}
    (hR : List.Forall₂ R l l') (hS : List.Forall₂ S l l') :
    List.Forall₂ (fun a b => R a b ∧ S a b) l l' := by
  induction hR with
  | nil => exact .nil
  | cons hab _ ih =>
    cases hS with
    | cons hab' hrest => exact .cons ⟨hab, hab'⟩ (ih hrest)

namespace Tree.Reordered

variable {bindings bindings' : List Expr}

theorem declaredType?_erase (e : Expr) : e.erase.declaredType? =
    e.declaredType?.map fun d => (d.1, eraseMembers d.2) := by
  cases e with
  | definition _ mutable _ ascription value =>
    cases mutable <;> cases ascription <;> try rfl
    cases value with
    | none => rfl
    | some value => cases value <;> rfl
  | _ => rfl

variable (h : Reordered bindings bindings')
include h

theorem declaredTypes :
    (bindings'.filterMap Node.declaredType?).map (fun d => (d.1, eraseMembers d.2)) =
      (bindings.filterMap Node.declaredType?).map fun d => (d.1, eraseMembers d.2) := by
  apply h.filterMap_eq declaredType?_erase
  intro e he
  cases e with
  | definition _ mutable _ ascription value =>
    cases mutable <;> cases ascription <;> try rfl
    cases value with
    | none => rfl
    | some value =>
      cases value <;> first
        | rfl
        | cases he
  | _ => rfl

theorem extensions : (bindings'.filterMap Node.extension?).map Extension.shape =
      (bindings.filterMap Node.extension?).map Extension.shape := by
  apply h.filterMap_eq (g := Node.extendedType?)
  · intro e
    cases e <;> rfl
  · intro e he
    cases e <;> first
      | rfl
      | cases he

theorem definitions : ((bindings'.filterMap Node.definition?).map Definition.shape).Perm
      ((bindings.filterMap Node.definition?).map Definition.shape) := by
  apply h.filterMap_perm (g := fun e => if e.isDefinition then some e else none)
  intro e
  cases e with
  | definition _ mutable _ ascription value =>
    cases mutable <;> cases ascription <;> try rfl
    cases value with
    | none => rfl
    | some value => cases value <;> rfl
  | _ => rfl

theorem expressions : ((bindings'.filterMap Node.expression?).map Node.erase).Perm
      ((bindings.filterMap Node.expression?).map Node.erase) := by
  apply h.filterMap_perm (g := fun e => if e.isExpression then some e else none)
  intro e
  cases e <;> rfl

theorem typeNames : Tree.typeNames bindings' = Tree.typeNames bindings := by
  have hnames := congrArg (List.map Prod.fst) h.declaredTypes
  rwa [List.map_map, List.map_map] at hnames

theorem valueNames : (Tree.valueNames bindings').Perm (Tree.valueNames bindings) := by
  have hname : Node.definedName? ∘ Definition.shape = some ∘ Definition.name := rfl
  have hnames := h.definitions.filterMap Node.definedName?
  rwa [List.filterMap_map, List.filterMap_map, hname, List.filterMap_eq_map] at hnames

theorem nodup_iff : (Tree.typeNames bindings' ++ Tree.valueNames bindings').Nodup ↔
      (Tree.typeNames bindings ++ Tree.valueNames bindings).Nodup := by
  rw [h.typeNames]
  exact (h.valueNames.append_left _).nodup_iff

end Tree.Reordered

/-- Two contexts with the same symbols, of which `values` are those of values, and the same types. -/
def Shift.same (values : List SymbolId) (symbols types : Nat)
    (hvalues : ∀ x ∈ values, Prelude.graph.symbols.size ≤ x.index ∧ x.index < symbols)
    (hsymbols : Prelude.graph.symbols.size ≤ symbols) : Shift where
  symbols := ⟨fun i => ⟨i⟩ ∉ values, symbols, symbols⟩
  types := ⟨fun _ => True, types, types⟩
  builders := ⟨fun _ => False, 0, 0⟩
  values := values
  values' := values
  fallbacks := []
  fallbacks' := []
  apart := by
    intro i j hij
    have hother : ∀ k, symbols ≤ k → (⟨k⟩ : SymbolId) ∉ values := by
      intro k hk hmem
      exact absurd (hvalues _ hmem).2 (Nat.not_lt.mpr hk)
    rcases hij with ⟨hold, -, -, rfl⟩ | ⟨hi, hj, -⟩
    · exact ⟨hold, hold⟩
    · exact ⟨hother i hi, hother j hj⟩
  error := by
    have hlt : Prelude.error.index < Prelude.graph.symbols.size := by decide
    have hin : Prelude.error.index < symbols := Nat.lt_of_lt_of_le hlt hsymbols
    refine .inl ⟨?_, hin, hin, rfl⟩
    intro hmem
    exact absurd (hvalues _ hmem).1 (Nat.not_le.mpr hlt)

namespace Shift

variable {values : List SymbolId} {symbols types : Nat}
  {hvalues : ∀ x ∈ values, Prelude.graph.symbols.size ≤ x.index ∧ x.index < symbols}
  {hsymbols : Prelude.graph.symbols.size ≤ symbols} {x : SymbolId}

theorem same_symbol_iff {y : SymbolId} :
    (same values symbols types hvalues hsymbols).pairing.symbol x y ↔ y = x ∧ x ∉ values := by
  obtain ⟨i⟩ := x
  obtain ⟨j⟩ := y
  simp only [pairing, same, Offset.Rel, Offset.Level, SymbolId.mk.injEq]
  constructor
  · rintro (⟨hold, -, -, rfl⟩ | ⟨hi, hj, heq⟩)
    · exact ⟨rfl, hold⟩
    · refine ⟨by omega, fun hmem => ?_⟩
      exact absurd (hvalues _ hmem).2 (Nat.not_lt.mpr hi)
  · rintro ⟨rfl, hold⟩
    by_cases hj : j < symbols
    · exact .inl ⟨hold, hj, hj, rfl⟩
    · exact .inr ⟨by omega, by omega, rfl⟩

theorem same_symbol_self (h : Prelude.graph.HasSymbol x) :
    (same values symbols types hvalues hsymbols).pairing.symbol x x := by
  refine same_symbol_iff.mpr ⟨rfl, fun hmem => ?_⟩
  exact absurd (hvalues x hmem).1 (Nat.not_le.mpr h)

theorem same_type_iff {u : TypeId} :
    (same values symbols types hvalues hsymbols).pairing.type t u ↔ u = t := by
  obtain ⟨i⟩ := t
  obtain ⟨j⟩ := u
  simp only [pairing, same, Offset.Rel, Offset.Level, TypeId.mk.injEq, true_and]
  omega

end Shift

theorem Pairing.Kinds.refl {kind : TypeKind} (h : kind.part? = none) :
    p.Kinds kind kind := by
  cases kind with
  | array | reference => cases h
  | record => exact .record
  | module => exact .module
  | error => exact .error

theorem Prelude.defs_refl (hp : ∀ {x}, graph.HasSymbol x → p.symbol x x) {d : TypeDef}
    (h : graph.def? t = some d) : p.Defs d d := by
  have hlt : graph.HasType t := .of_def? h
  obtain ⟨hmembers, hscope, htypes, hcontainer⟩ := bare h
  obtain ⟨hsymbol, hpart, -, huses⟩ := def?_graph h
  have hused : ∀ {x}, x ∈ d.uses → p.symbol x x := fun hx => hp (bound_of_lt (huses _ hx)).1
  refine
    { symbol := hp (hsymbol ▸ hlt)
      kind := .refl hpart
      members := by rw [hmembers]; exact .nil
      memberScope := by rw [hscope]; exact .empty
      typeScope := by rw [htypes]; exact .empty
      signatures := ?_
      container := by rw [hcontainer]; exact .none
      plain := by rw [hpart]; nofun }
  rw [List.forall₂_same]
  intro s hs
  refine ⟨?_, hused (TypeDef.signature_mem_uses hs List.mem_cons_self)⟩
  rw [List.forall₂_same]
  intro q hq
  exact ⟨rfl, hused (TypeDef.signature_mem_uses hs (List.mem_cons_of_mem _ (List.mem_map_of_mem hq))), rfl⟩

namespace TypeGraph

variable {g : TypeGraph}

theorem Unfilled.graphs (h : g.Unfilled) {values : List SymbolId}
    (hvalues : ∀ x ∈ values, Prelude.graph.symbols.size ≤ x.index ∧ x.index < g.symbols.size) :
    (Shift.same values g.symbols.size g.types.size hvalues h.size).Graphs g g where
  level := ⟨Nat.le_refl _, Nat.le_refl _, rfl⟩
  names hx := by rw [(Shift.same_symbol_iff.mp hx).1]
  bound := by
    intro x y hx
    rw [(Shift.same_symbol_iff.mp hx).1]
    cases g.bound? x with
    | none => exact .none
    | some t => exact .some (Shift.same_type_iff.mpr rfl)
  types := by
    refine ⟨⟨Nat.le_refl _, Nat.le_refl _, rfl⟩, ?_⟩
    intro i j hij
    have heq : (⟨j⟩ : TypeId) = ⟨i⟩ := Shift.same_type_iff.mp hij
    cases heq
    cases hd : g.types[i]? with
    | none => exact .none
    | some d => exact .some (Prelude.defs_refl Shift.same_symbol_self ((h.def?_eq ⟨i⟩).symm.trans hd))
  own := by
    intro x y t _ ht
    rw [h.bound, Prelude.bound?_graph] at ht
    split at ht
    next hlt =>
      cases ht
      obtain ⟨d, hd⟩ := TypeGraph.HasType.exists_def? (g := Prelude.graph) (t := ⟨x.index⟩) hlt
      exact ⟨d, (h.def?_eq _).trans hd, (Prelude.def?_graph hd).1⟩
    next => cases ht
  anonymous := by
    intro t u d _ hd hpart
    rw [h.def?_eq] at hd
    rw [(Prelude.def?_graph hd).2.1] at hpart
    cases hpart

end TypeGraph

section Lookups

variable {σ : Shift} {name : String} {α : Type}

theorem rel_or {R : α → α → Prop} {x x' y y' : Option α} (h : Option.Rel R x x')
    (h' : Option.Rel R y y') : Option.Rel R (x.or y) (x'.or y') := by
  cases h with
  | some ha => exact .some ha
  | none => exact h'

theorem lookup?_append [Named α] (name : String) (l l' : List α) :
    lookup? name (l ++ l') = (lookup? name l).or (lookup? name l') := List.find?_append

theorem lookup?_values_rel {members members' : List Member}
    (h : (members'.map Member.name).Perm (members.map Member.name)) (name : String) :
    Option.Rel σ.Declarations (lookup? name (members.map Declaration.value))
      (lookup? name (members'.map Declaration.value)) := by
  have hnone : ∀ {members : List Member},
      lookup? name (members.map Declaration.value) = none ↔ name ∉ members.map Member.name := by
    intro members
    simp [lookup?_eq_none_iff, Named.name, Declaration.name]
  have hvalue : ∀ {members : List Member} {d},
      lookup? name (members.map Declaration.value) = some d → ∃ m, d = .value m := by
    intro members d hd
    obtain ⟨m, -, rfl⟩ := List.mem_map.mp (List.mem_of_find?_eq_some hd)
    exact ⟨m, rfl⟩
  cases hd : lookup? name (members.map Declaration.value) with
  | none =>
    rw [hnone, ← h.mem_iff, ← hnone] at hd
    rw [hd]
    exact .none
  | some d =>
    obtain ⟨m, rfl⟩ := hvalue hd
    cases hd' : lookup? name (members'.map Declaration.value) with
    | none =>
      rw [hnone, h.mem_iff, ← hnone] at hd'
      cases hd.symm.trans hd'
    | some d' =>
      obtain ⟨m', rfl⟩ := hvalue hd'
      exact .some (.value m m')

/-- What the prelude declares corresponds to itself if its symbols do. -/
theorem Prelude.find?_rel (hself : ∀ {x}, Prelude.graph.HasSymbol x → σ.pairing.symbol x x)
    (name : String) :
    Option.Rel σ.Declarations (Prelude.scope.find? name) (Prelude.scope.find? name) := by
  cases hd : Prelude.scope.find? name with
  | none => exact .none
  | some d =>
    cases d with
    | value m => exact .some (.value m m)
    | type n =>
      have hlt : n.symbol.index < Prelude.error.index :=
        Prelude.symbol_lt_of_mem (Scope.mem_of_find? hd)
      exact .some (.type ⟨rfl, hself (Prelude.bound_of_lt hlt).1⟩)

end Lookups

namespace Context.Roll

variable {c c' : Context} {bindings bindings' : List Expr}

variable (h : c.Roll bindings)
include h

theorem declared_rel (h' : c'.Roll bindings') (hr : Tree.Reordered bindings bindings') :
    List.Forall₂ (fun d d' => d'.entry = d.entry ∧ eraseMembers d'.members = eraseMembers d.members)
      c.declared c'.declared := by
  have hshapes := hr.declaredTypes
  rw [← h.declared, ← h'.declared, List.map_map, List.map_map] at hshapes
  have hlength : c'.declared.length = c.declared.length := by simpa using congrArg List.length hshapes
  have hsymbols := h'.symbols
  rw [hlength, ← h.symbols] at hsymbols
  have hboth := forall₂_and (forall₂_of_map_eq hshapes.symm) (forall₂_of_map_eq hsymbols.symm)
  refine hboth.imp ?_
  rintro d d' ⟨hshape, hsymbol⟩
  simp only [Function.comp_apply, Prod.mk.injEq] at hshape
  refine ⟨?_, hshape.2.symm⟩
  cases hd : d.entry
  cases hd' : d'.entry
  rw [hd, hd'] at hshape hsymbol
  rw [TypeName.mk.injEq]
  exact ⟨hshape.1.symm, (congrArg SymbolId.mk hsymbol).symm⟩

theorem entries_eq (h' : c'.Roll bindings') (hr : Tree.Reordered bindings bindings') :
    c'.declared.map DeclaredType.entry = c.declared.map DeclaredType.entry := by
  have hentries : List.Forall₂ (fun d d' : DeclaredType => d.entry = d'.entry) c.declared c'.declared :=
    (h.declared_rel h' hr).imp fun _ _ hd => hd.1.symm
  rw [← List.forall₂_eq_eq_eq, List.forall₂_map_left_iff, List.forall₂_map_right_iff]
  exact hentries.flip.imp fun _ _ heq => heq.symm

theorem length_values (h' : c'.Roll bindings')
    (hr : Tree.Reordered bindings bindings') : c'.values.length = c.values.length := by
  have hlength := hr.definitions.length_eq
  rwa [← h.definitions, ← h'.definitions, List.length_map, List.length_map, List.length_map,
    List.length_map] at hlength

theorem valueSymbols_eq (h' : c'.Roll bindings')
    (hr : Tree.Reordered bindings bindings') : c'.valueSymbols = c.valueSymbols := by
  have hdeclared : c'.declared.length = c.declared.length := by
    simpa using congrArg List.length (h.entries_eq h' hr)
  have hindices := h'.valueSymbols
  rw [hdeclared, h.length_values h' hr, ← h.valueSymbols] at hindices
  have hmk : ∀ c : Context, c.valueSymbols =
      (c.values.map fun v => v.member.type.index).map SymbolId.mk := by
    intro c
    rw [Context.valueSymbols, List.map_map]
    rfl
  rw [hmk, hmk, hindices]

theorem graph_eq (h' : c'.Roll bindings')
    (hr : Tree.Reordered bindings bindings') : c'.graph = c.graph := by
  have hnames := congrArg (List.map TypeName.name) (h.entries_eq h' hr)
  rw [List.map_map, List.map_map] at hnames
  rw [h.graph, h'.graph, h.length_values h' hr]
  exact congrArg (fun names => (Prelude.graph.named names).named _) hnames

theorem unfilled : c.graph.Unfilled := by
  rw [h.graph]
  exact (TypeGraph.unfilled_prelude.named _).named _

theorem valueNames : (c.values.map ModuleValue.member).map Member.name = Tree.valueNames bindings := by
  rw [Tree.valueNames, ← h.definitions, List.map_map, List.map_map]
  apply List.map_congr_left
  intro v hv
  show v.member.name = v.definition.name
  rw [h.members v hv]
  rfl

/-- Modules that differ in the order of their bindings are declared in contexts that are the same but
for which value has which symbol. -/
theorem parallel (h' : c'.Roll bindings')
    (hr : Tree.Reordered bindings bindings') (hd : c.Declared bindings) (hd' : c'.Declared bindings')
    (hclean : c.diagnostics = []) (hclean' : c'.diagnostics = [])
    (hvalues : ∀ x ∈ c.valueSymbols, Prelude.graph.symbols.size ≤ x.index ∧
      x.index < c.graph.symbols.size) :
    Parallel (Shift.same c.valueSymbols c.graph.symbols.size c.graph.types.size hvalues
      h.unfilled.size) c c' where
  graph := by
    rw [h.graph_eq h' hr]
    exact h.unfilled.graphs hvalues
  builders := by
    rw [h.builders, h'.builders]
    exact ⟨⟨Nat.le_refl _, Nat.le_refl _, rfl⟩, fun _ => .none⟩
  nesting hb := by
    rw [h.builders] at hb
    cases hb
  builderOf := by
    intro x y _ _
    rw [builderOf?, builderOf?, h.builders, h'.builders, Array.findIdx?_empty, Array.findIdx?_empty]
    exact .none
  scope name := by
    rw [h.find, h'.find, declarations, declarations, lookup?_append, lookup?_append]
    refine rel_or (rel_or ?_ ?_) (Prelude.find?_rel ?_ name)
    · have htypes := congrArg (List.map Declaration.type) (h.entries_eq h' hr)
      rw [List.map_map, List.map_map] at htypes
      rw [show c'.declared.map (fun d => Declaration.type d.entry) =
        c.declared.map fun d => .type d.entry from htypes]
      cases hfound : lookup? name (c.declared.map fun d => Declaration.type d.entry) with
      | none => exact .none
      | some d =>
        obtain ⟨d, hmem, rfl⟩ := List.mem_map.mp (List.mem_of_find?_eq_some hfound)
        have hfree := hd.free d.entry.symbol (List.mem_map_of_mem hmem)
        exact .some (.type ⟨rfl, Shift.same_symbol_iff.mpr ⟨rfl, hfree.notMem⟩⟩)
    · have hnames := hr.valueNames
      rw [← h.valueNames, ← h'.valueNames] at hnames
      have hrel := lookup?_values_rel (σ := Shift.same c.valueSymbols c.graph.symbols.size
        c.graph.types.size hvalues h.unfilled.size) hnames name
      rwa [List.map_map, List.map_map] at hrel
    · exact Shift.same_symbol_self
  fallbacks := ⟨[], [], hd.fallbacks, hd'.fallbacks, .nil⟩
  quiet := ⟨hd.standing.quiet, by
    have hquiet := hd'.standing.quiet
    rwa [h.valueSymbols_eq h' hr] at hquiet⟩
  folded := ⟨h.folded, h'.folded⟩
  clean := iff_of_true hclean hclean'

end Context.Roll
end Binder
