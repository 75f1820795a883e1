import Binder.Proofs.Module.Entering
import Binder.Proofs.Module.TypeExpression

/-! A module whose names are declared. Every accepted value has a symbol of its own, which is unbound;
the frozen scope knows the declared types and values and whatever the prelude offers, and the nodes of
each binding are filed at most once. -/
namespace Binder

open Binder.Tree (Expr Mark NodeId)

/-- The nodes of a definition other than itself. -/
def Definition.nodes (d : Definition) : List Expr :=
  Tree.preorderOption d.ascription ++ Tree.preorderOption d.value

def Extension.nodes (x : Extension) : List Expr :=
  x.target.preorder ++ Tree.preorderMembers x.members

def DeclaredType.nodes (d : DeclaredType) : List Expr := Tree.preorderMembers d.members

namespace Context

variable {c c' i : Context} {name : String} {bindings : List Expr} {e : Expr} {n : NodeId}
  {d : Definition} {s : SymbolId}

def declaredSymbols (c : Context) : List SymbolId := c.declared.map fun d => d.entry.symbol

def valueSymbols (c : Context) : List SymbolId := c.values.map fun v => v.member.type

/-- The name stands for a type or a value that the module has declared. -/
def Registered (c : Context) : Declaration → Prop
  | .type entry => entry.symbol ∈ c.declaredSymbols
  | .value member => member.type ∈ c.valueSymbols

def material (c : Context) : List Expr :=
  c.declared.flatMap DeclaredType.nodes ++ c.definitions.flatMap Definition.nodes ++
    c.extensions.flatMap Extension.nodes ++ Tree.preorderOf c.expressions

/-- A binding is filed where bindings of its kind are. -/
def Filed (c : Context) (e : Expr) : Prop :=
  match e.declaredMembers?, e with
  | some members, _ => ∃ d ∈ c.declared, d.members = members
  | none, .definition note mutable name ascription value =>
      ⟨note, mutable, name, ascription, value⟩ ∈ c.definitions
  | none, .extension _ target members => ⟨target, members⟩ ∈ c.extensions
  | none, e => e ∈ c.expressions

/-- The context with the definitions that were accepted put back to where they were filed. -/
def refiled (c : Context) : Context :=
  { c with definitions := c.values.map ModuleValue.definition }

/-- All bindings of a module are entered. -/
def Entered (bindings : List Expr) (c : Context) : Prop :=
  ∃ name, c = entered name .entered bindings

/-- The names of a module are frozen, with one bearer each. -/
structure Settlement (bindings : List Expr) (c : Context) : Prop where
  types : c.declared.map (fun d => (d.entry.name, d.members)) =
    (Tree.winningTypes bindings).filterMap Tree.Node.declaredType?
  values : c.values.map ModuleValue.definition =
    (Tree.winningValues bindings).filterMap Tree.Node.definition?
  members : ∀ v ∈ c.values, v.member = v.definition.member v.member.type
  names : (c.declarations.map Declaration.name).Nodup
  find : ∀ x, c.find? x = (lookup? x c.declarations).or (Prelude.scope.find? x)

namespace Settlement

variable {x : String}

theorem congr (h : i.Settlement bindings) (hdeclared : c.declared = i.declared)
    (hvalues : c.values = i.values) (hfind : ∀ x, c.find? x = i.find? x) : c.Settlement bindings where
  types := hdeclared ▸ h.types
  values := hvalues ▸ h.values
  members := hvalues ▸ h.members
  names := by rw [declarations, hdeclared, hvalues]; exact h.names
  find x := by rw [hfind, h.find, declarations, declarations, hdeclared, hvalues]

theorem find_type (h : c.Settlement bindings)
    (he : bindings.find? (fun e => e.typeName? = some x) = some e) :
    ∃ d ∈ c.declared, e.declaredType? = some (x, d.members) ∧ c.find? x = some (.type d.entry) := by
  rw [← find?_winners (List.not_mem_nil : x ∉ ([] : List String))] at he
  have hname : e.typeName? = some x := by simpa using List.find?_some he
  obtain ⟨⟨x, members⟩, hdeclared, rfl⟩ := Option.map_eq_some_iff.mp hname
  have hmem : (x, members) ∈ c.declared.map fun d => (d.entry.name, d.members) := by
    rw [h.types]
    exact List.mem_filterMap.mpr ⟨e, List.mem_of_find?_eq_some he, hdeclared⟩
  obtain ⟨d, hd, heq⟩ := List.mem_map.mp hmem
  cases heq
  refine ⟨d, hd, hdeclared, ?_⟩
  have hfound : lookup? d.entry.name c.declarations = some (.type d.entry) :=
    lookup?_of_mem h.names (List.mem_append_left _ (List.mem_map_of_mem hd))
  rw [h.find, hfound, Option.some_or]

theorem find_value (h : c.Settlement bindings) (hx : x ∉ Tree.typeNames bindings)
    (he : bindings.find? (fun e => e.valueName? = some x) = some e) :
    ∃ v ∈ c.values, e.definition? = some v.definition ∧ c.find? x = some (.value v.member) := by
  rw [← find?_winners hx] at he
  have hname : e.valueName? = some x := by simpa using List.find?_some he
  obtain ⟨d, hd, rfl⟩ := Option.map_eq_some_iff.mp hname
  have hmem : d ∈ c.values.map ModuleValue.definition := by
    rw [h.values]
    exact List.mem_filterMap.mpr ⟨e, List.mem_of_find?_eq_some he, hd⟩
  obtain ⟨v, hv, rfl⟩ := List.mem_map.mp hmem
  refine ⟨v, hv, hd, ?_⟩
  have hmember : v.member.name = v.definition.name := by
    rw [h.members v hv]
    rfl
  have hfound : lookup? v.member.name c.declarations = some (.value v.member) :=
    lookup?_of_mem h.names (List.mem_append_right _ (List.mem_map_of_mem hv))
  rw [h.find, ← hmember, hfound, Option.some_or]

theorem find_other (h : c.Settlement bindings) (hx : x ∉ Tree.typeNames bindings)
    (hx' : x ∉ Tree.valueNames bindings) : c.find? x = Prelude.scope.find? x := by
  have hnone : lookup? x c.declarations = none := by
    rw [lookup?_eq_none_iff]
    rintro d hd rfl
    rcases List.mem_append.mp hd with hd | hd
    · obtain ⟨t, ht, rfl⟩ := List.mem_map.mp hd
      have hmem : (t.entry.name, t.members) ∈ (Tree.winningTypes bindings).filterMap
          Tree.Node.declaredType? := h.types ▸ List.mem_map.mpr ⟨t, ht, rfl⟩
      obtain ⟨e, he, hdeclared⟩ := List.mem_filterMap.mp hmem
      apply hx
      rw [← Tree.filterMap_typeName?]
      exact List.mem_filterMap.mpr
        ⟨e, mem_of_mem_winners he, by rw [Tree.Node.typeName?, hdeclared]; rfl⟩
    · obtain ⟨v, hv, rfl⟩ := List.mem_map.mp hd
      have hmem : v.definition ∈ (Tree.winningValues bindings).filterMap Tree.Node.definition? :=
        h.values ▸ List.mem_map_of_mem hv
      obtain ⟨e, he, hdefinition⟩ := List.mem_filterMap.mp hmem
      apply hx'
      show v.member.name ∈ _
      rw [← Tree.filterMap_valueName?, h.members v hv]
      exact List.mem_filterMap.mpr
        ⟨e, mem_of_mem_winners he, by rw [Tree.Node.valueName?, hdefinition]; rfl⟩
  rw [h.find, hnone, Option.none_or]

end Settlement

/-! The nodes of the bindings that lose -/

theorem count_filterMap_le {β : Type} {f : Expr → Option β} (nodes : β → List Expr) {n : NodeId}
    (h : ∀ e b, f e = some b → Tree.count n (nodes b) ≤ Tree.count n e.preorder) (l : List Expr) :
    Tree.count n ((l.filterMap f).flatMap nodes) ≤ Tree.count n (Tree.preorderOf l) := by
  induction l with
  | nil => exact Nat.le_refl _
  | cons e l ih =>
    rw [Tree.preorderOf, Tree.count_append]
    cases hb : f e with
    | none =>
      rw [List.filterMap_cons_none hb]
      omega
    | some b =>
      have hle := h e b hb
      rw [List.filterMap_cons_some hb, List.flatMap_cons, Tree.count_append]
      omega

theorem count_bystanders (n : NodeId) (bindings : List Expr) :
    Tree.count n ((bindings.filterMap Tree.Node.extension?).flatMap Extension.nodes) +
        Tree.count n (Tree.preorderOf (bindings.filterMap Tree.Node.expression?)) ≤
      Tree.count n (Tree.preorderOf (Tree.bystanders bindings)) := by
  induction bindings with
  | nil => exact Nat.le_refl _
  | cons e rest ih =>
    cases e with
    | definition => exact ih
    | extension note target members =>
      show Tree.count n (Extension.nodes ⟨target, members⟩ ++
          (rest.filterMap Tree.Node.extension?).flatMap Extension.nodes) +
          Tree.count n (Tree.preorderOf (rest.filterMap Tree.Node.expression?)) ≤
        Tree.count n ((Tree.Node.extension note target members).preorder ++
          Tree.preorderOf (Tree.bystanders rest))
      have hnodes : Tree.count n (Extension.nodes ⟨target, members⟩) ≤
          Tree.count n (Tree.Node.extension note target members).preorder := Tree.count_le_cons ..
      rw [Tree.count_append, Tree.count_append]
      omega
    | literal | ident | selection | call | namedArgument | sequence | typeLiteral | arrayType
    | referenceType =>
      show _ + Tree.count n (_ ++ Tree.preorderOf (rest.filterMap Tree.Node.expression?)) ≤
        Tree.count n (_ ++ Tree.preorderOf (Tree.bystanders rest))
      rw [Tree.count_append, Tree.count_append]
      exact (Nat.add_left_comm ..).trans_le (Nat.add_le_add_left ih _)

theorem count_declaredType? (n : NodeId) {d : String × List (Tree.Member Mark)}
    (h : e.declaredType? = some d) :
    Tree.count n (Tree.preorderMembers d.2) ≤ Tree.count n e.preorder := by
  obtain ⟨note, note', rfl⟩ := Tree.Node.declaredType?_eq_some h
  have hliteral := Tree.count_le_cons n (.typeLiteral note' d.2) (Tree.preorderMembers d.2)
  have hdefinition := Tree.count_le_cons n
    (.definition note false d.1 none (some (.typeLiteral note' d.2)))
    (Tree.Node.typeLiteral note' d.2).preorder
  exact Nat.le_trans hliteral hdefinition

theorem count_definition? (n : NodeId) (h : e.definition? = some d) :
    Tree.count n d.nodes ≤ Tree.count n e.preorder := by
  obtain rfl := Tree.Node.definition?_eq_some h
  exact Tree.count_le_cons ..

/-- What a module holds once its names are declared. Only the bindings that stand are left in it. -/
structure Accepts (bindings : List Expr) (c : Context) : Prop extends c.Settlement bindings where
  definitions : c.definitions = []
  extensions : c.extensions = bindings.filterMap Tree.Node.extension?
  expressions : c.expressions = bindings.filterMap Tree.Node.expression?
  constants : c.constants = []
  reports : c.diagnostics = (Tree.duplicates bindings).map fun e => ⟨e.span, .duplicateSymbol⟩

theorem span_definition? (h : e.definition? = some d) : d.node.span = e.span := by
  rw [Tree.Node.definition?_eq_some h]
  rfl

/-! The context that the bindings of a module lead to -/

theorem accepts_named (name : String) (bindings : List Expr) :
    (named name bindings).Accepts bindings := by
  have hnodup : ((named name bindings).declarations.map Declaration.name).Nodup := by
    rw [declarations, List.map_append, List.map_map, List.map_map, List.nodup_append]
    refine ⟨?_, ?_, ?_⟩
    · exact names_typesOf bindings ▸ nodup_names_winners _
    · exact names_valuesOf bindings _ ▸ nodup_names_winners _
    · rintro x hx y hy rfl
      exact ((mem_names_valuesOf ..).mp hy).2 ((mem_names_typesOf ..).mp hx)
  refine
    { types := (typesOf_map bindings).trans (filterMap_winners ..).1.symm
      values := (valuesOf_map ..).trans (filterMap_winners ..).1.symm
      members := fun v hv => member_of_mem_valuesOf hv
      names := hnodup
      find := ?_
      definitions := rfl, extensions := rfl, expressions := rfl, constants := rfl
      reports := ?_ }
  · intro x
    have hfind : (named name bindings).find? x = ((Scope.ofList
        (named name bindings).declarations).find? x).or (Prelude.scope.find? x) := Scope.find?_merge ..
    rw [hfind, Scope.find?_ofList]
  · show (Tree.losingTypes bindings).map _ ++ _ = _
    rw [Tree.duplicates, List.map_append, ← (filterMap_winners Tree.Node.definition? _ _ _).2,
      map_filterMap_of_forall]
    · rfl
    · intro e he
      obtain ⟨d, hd⟩ := Option.isSome_iff_exists.mp (Option.isSome_map ▸ isSome_of_mem_losers he)
      exact ⟨d, hd, by rw [span_definition? hd]⟩

theorem Accepts.charge (h : c.Accepts bindings) (n : NodeId) :
    Tree.count n c.refiled.material ≤ Tree.count n (Tree.preorderOf (Tree.standing bindings)) := by
  have htypes : c.declared.flatMap DeclaredType.nodes =
      ((Tree.winningTypes bindings).filterMap Tree.Node.declaredType?).flatMap
        fun d => Tree.preorderMembers d.2 := by
    rw [← h.types, List.flatMap_map]
    rfl
  have hleft := count_filterMap_le (f := Tree.Node.declaredType?)
    (fun d => Tree.preorderMembers d.2) (fun _ _ => count_declaredType? n) (Tree.winningTypes bindings)
  have hright := count_filterMap_le (f := Tree.Node.definition?)
    Definition.nodes (fun _ _ => count_definition? n) (Tree.winningValues bindings)
  have hothers := count_bystanders n bindings
  simp only [material, refiled, Tree.count_append, htypes, h.values, h.extensions, h.expressions,
    Tree.standing, Tree.preorderOf_append]
  omega

theorem count_standing (n : NodeId) (bindings : List Expr) :
    Tree.count n (Tree.preorderOf (Tree.standing bindings)) +
      Tree.count n (Tree.preorderOf (Tree.duplicates bindings)) =
        Tree.count n (Tree.preorderOf bindings) := by
  rw [← Tree.count_append, ← Tree.preorderOf_append, Tree.preorderOf_eq_flatMap,
    Tree.preorderOf_eq_flatMap]
  exact Tree.count_perm n ((Tree.perm_bindings bindings).flatMap_right _)

/-- All values of a module are declared, and its scope is frozen. -/
structure Declared (bindings : List Expr) (c : Context) : Prop where
  standing : c.Standing c.valueSymbols []
  unbound : ∀ s ∈ c.valueSymbols, c.graph.bound? s = none
  free : ∀ s ∈ c.declaredSymbols, c.Free c.valueSymbols s
  named : ∀ d ∈ c.declared, c.graph.nameOf d.entry.symbol = d.entry.name
  nodup : c.declaredSymbols.Nodup
  root : c.root = some c.rootScope
  names : ∀ {name d}, c.rootScope.find? name = some d →
    c.Registered d ∨ d.symbol.index < Prelude.error.index
  inference : c.inference = .initial c.graph c.rootScope
  fallbacks : c.fallbacks = []
  charge : ∀ n, Tree.count n c.refiled.material ≤ Tree.count n (Tree.preorderOf bindings)
  covers : c.diagnostics = [] → ∀ e ∈ bindings, c.refiled.Filed e

theorem standing_of_unfilled {V : List SymbolId} (hgraph : c.graph.Unfilled)
    (hbuilders : c.builders = #[]) (hquiet : c.inference.Quiet V)
    (hV : ∀ s ∈ V, Prelude.graph.symbols.size ≤ s.index ∧ c.graph.HasSymbol s) :
    c.Standing V [] := by
  have hnone : ∀ {i : Nat} {b : TypeBuilder}, c.builders[i]? ≠ some b := by
    intro i b hb
    simp [hbuilders] at hb
  have hnested : ∀ {k i : BuilderId}, ¬ NestedIn c.builders k i := by
    intro k i hn
    simp [NestedIn, nestedOf, hbuilders] at hn
  refine
    { graph := (hgraph.orderly hV).mono fun s hs => ⟨hs.2.1, .inl hs.1, fun _ => hs.2.2⟩
      quiet := hquiet
      forest := ⟨fun hn => (hnested hn).elim, fun hn => (hnested hn).elim, ?_⟩
      builder := fun hb => (hnone hb).elim
      distinct := fun hb => (hnone hb).elim
      uses := fun hb => (hnone hb).elim
      offered := fun hb => (hnone hb).elim
      kept := ?_
      laid := fun hb => (hnone hb).elim
      plain := fun hd => .inl (Prelude.bare ((hgraph.def?_eq _).symm.trans hd)).2.2.1
      nodup := List.nodup_nil
      outermost := List.forall_mem_nil _
      open_iff := fun hb => (hnone hb).elim }
  · intro i
    simp [nestedOf, hbuilders]
  · intro t d signature p e hd hsignature hp he
    rw [hgraph.def?_eq] at hd
    rw [Prelude.fallback_eq_none hd hsignature hp] at he
    cases he

/-- The names of a module are frozen: those that its bindings define stand for what it declares, and the
others for what the prelude has. -/
structure Named (names : List String) (c : Context) : Prop where
  defined : ∀ name ∈ names, ∃ d, c.rootScope.find? name = some d ∧
    Prelude.graph.symbols.size ≤ d.symbol.index
  undefined : ∀ name ∉ names, c.rootScope.find? name = Prelude.scope.find? name
  distinct : (c.values.map fun v => v.member.name).Nodup
  constants : c.constants = []

theorem Named.congr (h : c.Named names) (hroot : c'.root = c.root) (hvalues : c'.values = c.values)
    (hconstants : c'.constants = c.constants) : c'.Named names where
  defined := by rw [rootScope, hroot]; exact h.defined
  undefined := by rw [rootScope, hroot]; exact h.undefined
  distinct := hvalues ▸ h.distinct
  constants := hconstants.trans h.constants

/-- Everything that the bindings of a module declare is declared, and its scope is frozen. -/
structure Roll (bindings : List Expr) (c : Context) : Prop where
  declared : c.declared.map (fun d => (d.entry.name, d.members)) =
    bindings.filterMap Tree.Node.declaredType?
  symbols : c.declared.map (fun d => d.entry.symbol.index) =
    List.range' Prelude.graph.symbols.size c.declared.length
  definitions : c.values.map ModuleValue.definition = bindings.filterMap Tree.Node.definition?
  members : ∀ v ∈ c.values, v.member = v.definition.member v.member.type
  valueSymbols : c.values.map (fun v => v.member.type.index) =
    List.range' (Prelude.graph.symbols.size + c.declared.length) c.values.length
  extensions : c.extensions = bindings.filterMap Tree.Node.extension?
  expressions : c.expressions = bindings.filterMap Tree.Node.expression?
  names : (c.declarations.map Declaration.name).Nodup
  find : ∀ name, c.find? name = (lookup? name c.declarations).or (Prelude.scope.find? name)
  graph : c.graph = (Prelude.graph.named (c.declared.map fun d => d.entry.name)).named
    (List.replicate c.values.length "")
  builders : c.builders = #[]
  folded : c.foldingFaults = []

theorem index_of_mem_declaredSymbols (h : s ∈ (named name bindings).declaredSymbols) :
    Prelude.graph.symbols.size ≤ s.index ∧
      s.index < Prelude.graph.symbols.size + (Tree.typeNames bindings).length := by
  obtain ⟨d, hd, rfl⟩ := List.mem_map.mp h
  obtain ⟨x, hx, rfl⟩ := List.mem_map.mp hd
  obtain ⟨hle, hget⟩ := getElem?_of_mem_numbered hx
  obtain ⟨hlt, -⟩ := List.getElem?_eq_some_iff.mp hget
  refine ⟨hle, ?_⟩
  show x.2 < _
  rw [Tree.typeNames, List.length_map]
  omega

theorem index_of_mem_valueSymbols (h : s ∈ (named name bindings).valueSymbols) :
    Prelude.graph.symbols.size + (Tree.typeNames bindings).length ≤ s.index ∧
      s.index < Prelude.graph.symbols.size + (Tree.typeNames bindings).length +
        (bindings.filterMap Tree.Node.definition?).length := by
  obtain ⟨v, hv, rfl⟩ := List.mem_map.mp h
  obtain ⟨x, hx, rfl⟩ := List.mem_map.mp hv
  obtain ⟨hle, hget⟩ := getElem?_of_mem_numbered hx
  obtain ⟨hlt, -⟩ := List.getElem?_eq_some_iff.mp hget
  refine ⟨hle, ?_⟩
  show x.2 < _
  omega

theorem size_graph_named (name : String) (bindings : List Expr) :
    (named name bindings).graph.symbols.size = Prelude.graph.symbols.size +
      (Tree.typeNames bindings).length + (bindings.filterMap Tree.Node.definition?).length := by
  refine (TypeGraph.size_named ..).trans ?_
  rw [TypeGraph.size_named, List.length_replicate]

theorem nameOf_named {d : DeclaredType} (h : d ∈ (named name bindings).declared) :
    (named name bindings).graph.nameOf d.entry.symbol = d.entry.name := by
  obtain ⟨x, hx, rfl⟩ := List.mem_map.mp h
  obtain ⟨hle, hget⟩ := getElem?_of_mem_numbered hx
  have hname : (Tree.typeNames bindings)[x.2 - Prelude.graph.symbols.size]? = some x.1.1 := by
    rw [Tree.typeNames, List.getElem?_map, hget]
    rfl
  have hlength := (List.getElem?_eq_some_iff.mp hname).1
  have hlt : x.2 < (Prelude.graph.names ++ Tree.typeNames bindings).length := by
    rw [List.length_append, TypeGraph.length_names]
    omega
  show ((Prelude.graph.named _).named _).nameOf ⟨x.2⟩ = x.1.1
  rw [TypeGraph.nameOf_eq, TypeGraph.names_named, TypeGraph.names_named,
    List.getElem?_append_left hlt, List.getElem?_append_right (by rwa [TypeGraph.length_names]),
    TypeGraph.length_names, hname]
  rfl

theorem filed_named (hclean : (named name bindings).diagnostics = []) (he : e ∈ bindings) :
    (named name bindings).refiled.Filed e := by
  have haccepts := accepts_named name bindings
  have hlosers : Tree.losingTypes bindings = [] ∧ Tree.losingValues bindings = [] := by
    rwa [haccepts.reports, List.map_eq_nil_iff, Tree.duplicates, List.append_eq_nil_iff] at hclean
  cases hdeclared : e.declaredType? with
  | some d =>
    have hmem : e ∈ Tree.winningTypes bindings := by
      rw [Tree.winningTypes, winners_of_losers _ hlosers.1, List.mem_filter, Tree.Node.typeName?,
        hdeclared]
      exact ⟨he, rfl⟩
    have htypes := List.mem_filterMap.mpr ⟨e, hmem, hdeclared⟩
    rw [← haccepts.types] at htypes
    obtain ⟨t, ht, rfl⟩ := List.mem_map.mp htypes
    simp only [Filed, Tree.Node.declaredMembers?_eq, hdeclared]
    exact ⟨t, ht, rfl⟩
  | none =>
    simp only [Filed, Tree.Node.declaredMembers?_eq, hdeclared, Option.map_none]
    cases e with
    | definition note mutable x ascription value =>
      have hd := Tree.Node.definition?_of_declaredType? hdeclared
      have hmem : Tree.Node.definition note mutable x ascription value ∈
          Tree.winningValues bindings := by
        rw [Tree.winningValues, winners_of_losers _ hlosers.2, List.mem_filter,
          Tree.Node.valueName?, hd]
        exact ⟨he, rfl⟩
      show _ ∈ (named name bindings).values.map ModuleValue.definition
      rw [haccepts.values]
      exact List.mem_filterMap.mpr ⟨_, hmem, hd⟩
    | extension | literal | ident | selection | call | namedArgument | sequence | typeLiteral
    | arrayType | referenceType => exact List.mem_filterMap.mpr ⟨_, he, rfl⟩

theorem declared_named (name : String) (bindings : List Expr) :
    (named name bindings).Declared bindings := by
  have hgraph : (named name bindings).graph.Unfilled :=
    (TypeGraph.unfilled_prelude.named _).named _
  have hsize := size_graph_named name bindings
  have htypes : ∀ s ∈ (named name bindings).declaredSymbols, Prelude.graph.symbols.size ≤ s.index ∧
      (named name bindings).graph.HasSymbol s := by
    intro s hs
    obtain ⟨hle, hlt⟩ := index_of_mem_declaredSymbols hs
    exact ⟨hle, by rw [TypeGraph.HasSymbol, hsize]; omega⟩
  have hvalues : ∀ s ∈ (named name bindings).valueSymbols, Prelude.graph.symbols.size ≤ s.index ∧
      (named name bindings).graph.HasSymbol s := by
    intro s hs
    obtain ⟨hle, hlt⟩ := index_of_mem_valueSymbols hs
    exact ⟨by omega, by rw [TypeGraph.HasSymbol, hsize]; omega⟩
  refine
    { standing := standing_of_unfilled hgraph rfl
        ⟨List.forall_mem_nil _, List.forall_mem_nil _, rfl⟩ hvalues
      unbound := ?_
      free := ?_
      named := fun d hd => nameOf_named hd
      nodup := ?_
      root := rfl
      names := ?_
      inference := rfl
      fallbacks := rfl
      charge := ?_
      covers := fun hclean e he => filed_named hclean he }
  · intro s hs
    exact (TypeGraph.isUnbound_iff.mp (hgraph.isUnbound (hvalues s hs).1 (hvalues s hs).2)).2
  · intro s hs
    refine ⟨(htypes s hs).1, hgraph.isUnbound (htypes s hs).1 (htypes s hs).2, fun hmem => ?_,
      fun hb => by cases hb⟩
    have hlt := (index_of_mem_declaredSymbols hs).2
    have hle := (index_of_mem_valueSymbols hmem).1
    omega
  · have hnodup : (typesOf bindings).map (fun d => d.entry.symbol) = ((numbered Prod.fst []
        Prelude.graph.symbols.size (bindings.filterMap Tree.Node.declaredType?)).map Prod.snd).map
          SymbolId.mk := by
      rw [typesOf, List.map_map, List.map_map]
      rfl
    show ((typesOf bindings).map fun d => d.entry.symbol).Nodup
    rw [hnodup]
    exact (nodup_numbered _).map fun _ _ => SymbolId.mk.inj
  · intro x d hd
    have hfind := (accepts_named name bindings).find x
    rw [find?, show (named name bindings).root = some (named name bindings).rootScope from rfl] at hfind
    rcases Option.or_eq_some_iff.mp (hfind.symm.trans hd) with hown | ⟨-, hprelude⟩
    · rcases List.mem_append.mp (List.mem_of_find?_eq_some hown) with htype | hvalue
      · obtain ⟨t, ht, rfl⟩ := List.mem_map.mp htype
        exact .inl (List.mem_map_of_mem ht)
      · obtain ⟨v, hv, rfl⟩ := List.mem_map.mp hvalue
        exact .inl (List.mem_map_of_mem hv)
    · exact .inr (Prelude.symbol_lt_of_mem (Scope.mem_of_find? hprelude))
  · intro n
    have hcharge := (accepts_named name bindings).charge n
    have hcount := count_standing n bindings
    omega

theorem name_mem_declarations (name x : String) (bindings : List Expr) :
    x ∈ (named name bindings).declarations.map Declaration.name ↔ x ∈ Tree.definedNames bindings := by
  rw [declarations, List.map_append, List.map_map, List.map_map, List.mem_append,
    Tree.mem_definedNames]
  have htypes := mem_names_typesOf bindings x
  have hvalues := mem_names_valuesOf bindings (bindings.filterMap Tree.Node.definition?) x
  show x ∈ (typesOf bindings).map _ ∨ x ∈ (valuesOf bindings _).map _ ↔ _
  rw [Tree.valueNames]
  tauto

theorem names_named (name : String) (bindings : List Expr) :
    (named name bindings).Named (Tree.definedNames bindings) := by
  have haccepts := accepts_named name bindings
  constructor
  · intro x hx
    obtain ⟨d, hd, rfl⟩ := List.mem_map.mp ((name_mem_declarations name x bindings).mpr hx)
    have hfind := haccepts.find d.name
    have hown : lookup? d.name (named name bindings).declarations = some d :=
      lookup?_of_mem haccepts.names hd
    rw [hown, Option.some_or] at hfind
    refine ⟨d, hfind, ?_⟩
    rcases List.mem_append.mp hd with hd | hd
    · obtain ⟨t, ht, rfl⟩ := List.mem_map.mp hd
      exact (index_of_mem_declaredSymbols (List.mem_map_of_mem ht)).1
    · obtain ⟨v, hv, rfl⟩ := List.mem_map.mp hd
      exact Nat.le_trans (Nat.le_add_right ..) (index_of_mem_valueSymbols (List.mem_map_of_mem hv)).1
  · intro x hx
    rw [Tree.mem_definedNames, not_or] at hx
    exact haccepts.find_other hx.1 hx.2
  · have hnodup := haccepts.names
    rw [declarations, List.map_append, List.map_map, List.map_map] at hnodup
    exact (List.nodup_append.mp hnodup).2.1
  · rfl

theorem diagnostics_named : (named name bindings).diagnostics = [] ↔
    (Tree.typeNames bindings ++ Tree.valueNames bindings).Nodup := by
  have htypes : Tree.losingTypes bindings = [] ↔ (Tree.typeNames bindings).Nodup := by
    rw [← Tree.filterMap_typeName?]
    exact losers_eq_nil_iff List.nodup_nil bindings
  rw [(accepts_named name bindings).reports, List.map_eq_nil_iff, Tree.duplicates,
    List.append_eq_nil_iff, htypes]
  constructor
  · rintro ⟨hnodup, hlosers⟩
    rw [← Tree.filterMap_valueName?]
    exact (losers_eq_nil_iff hnodup bindings).mp hlosers
  · intro hnodup
    have hleft := (List.nodup_append.mp hnodup).1
    rw [← Tree.filterMap_valueName?] at hnodup
    exact ⟨hleft, (losers_eq_nil_iff hleft bindings).mpr hnodup⟩

/-- If no name is declared twice, all symbols after the prelude are borne by types and values. -/
theorem roll_named (hclean : (named name bindings).diagnostics = []) :
    (named name bindings).Roll bindings := by
  have haccepts := accepts_named name bindings
  obtain ⟨htypes, hvalues⟩ := List.append_eq_nil_iff.mp (show _ ++ _ = [] from hclean)
  rw [List.map_eq_nil_iff] at htypes hvalues
  have hlosers : losers (some ∘ Prod.fst) [] (bindings.filterMap Tree.Node.declaredType?) = [] := by
    rw [← (filterMap_winners Tree.Node.declaredType? _ _ _).2]
    exact congrArg (List.filterMap _) htypes
  have hdeclared : (named name bindings).declared = ((bindings.filterMap
      Tree.Node.declaredType?).zipIdx Prelude.graph.symbols.size).map
        fun x => ⟨⟨x.1.1, ⟨x.2⟩⟩, x.1.2⟩ := by
    rw [← numbered_of_losers hlosers]
    rfl
  have hdefined : (named name bindings).values = ((bindings.filterMap
      Tree.Node.definition?).zipIdx (Prelude.graph.symbols.size +
        (Tree.typeNames bindings).length)).map fun x => ⟨x.1, x.1.member ⟨x.2⟩⟩ := by
    rw [← numbered_of_losers hvalues]
    rfl
  have hlength : (named name bindings).declared.length = (Tree.typeNames bindings).length := by
    rw [hdeclared, List.length_map, List.length_zipIdx, Tree.typeNames, List.length_map]
  refine
    { declared := ?_, symbols := ?_, definitions := ?_, members := haccepts.members
      valueSymbols := ?_, extensions := rfl, expressions := rfl, names := haccepts.names
      find := haccepts.find, graph := ?_, builders := rfl, folded := rfl }
  · rw [hdeclared, List.map_map]
    exact List.zipIdx_map_fst ..
  · rw [hlength, hdeclared, List.map_map, Tree.typeNames, List.length_map]
    exact List.zipIdx_map_snd ..
  · rw [hdefined, List.map_map]
    exact List.zipIdx_map_fst ..
  · rw [hlength, hdefined, List.length_map, List.length_zipIdx, List.map_map]
    exact List.zipIdx_map_snd ..
  · have hnames : (named name bindings).declared.map (fun d => d.entry.name) =
        Tree.typeNames bindings := by
      rw [hdeclared, List.map_map, Tree.typeNames, ← List.zipIdx_map_fst Prelude.graph.symbols.size
        (bindings.filterMap _), List.map_map, List.zipIdx_map_fst]
      rfl
    rw [hnames, hdefined, List.length_map, List.length_zipIdx]
    rfl

end Context

namespace Build

open Context

variable {c : Context} {bindings : List Expr}

theorem enter_ends (name : String) (root : Expr) :
    Ends (enter root) (Context.initial name) fun _ c =>
      c.Entered root.bindings ∧ c.stage = .entered :=
  ⟨(), _, enter_eq name root, ⟨name, rfl⟩, rfl⟩

theorem enter_of_entered (h : c.stage = .entered) (root : Expr) :
    enter root c = .error .alreadyEntered c := by
  rw [enter, get_bind, h]
  rfl

theorem enter_of_built (h : c.stage = .built) (root : Expr) :
    enter root c = .error .alreadyBuilt c := by
  rw [enter, get_bind, h]
  rfl

theorem declareValues_ends (h : c.Entered bindings) :
    Ends declareValues c fun _ c' => c'.Declared bindings := by
  obtain ⟨name, rfl⟩ := h
  exact ⟨(), _, declareValues_entered name bindings, declared_named name bindings⟩

end Build
end Binder
