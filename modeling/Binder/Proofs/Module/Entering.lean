import Binder.Proofs.Module.Pass
import Binder.Proofs.Module.Sifting
import Binder.Proofs.TypeGraph.Unfilled

/-! Entering a module and declaring its values, told from its bindings alone. Every type and every value
gets a symbol, the values after the types, and those that are the first of their names bear them. -/
namespace Binder

open Binder.Tree (Expr Mark NodeId)

namespace TypeGraph

def named (g : TypeGraph) (names : List String) : TypeGraph :=
  names.foldl (fun g name => (g.newSymbol name).2) g

theorem named_snoc (g : TypeGraph) (names : List String) (name : String) :
    g.named (names ++ [name]) = ((g.named names).newSymbol name).2 := by
  rw [named, List.foldl_append]
  rfl

theorem names_named (g : TypeGraph) (names : List String) :
    (g.named names).names = g.names ++ names := by
  induction names using List.reverseRecOn with
  | nil => exact (List.append_nil _).symm
  | append_singleton names name ih => rw [named_snoc, names_newSymbol, ih, List.append_assoc]

theorem size_named (g : TypeGraph) (names : List String) :
    (g.named names).symbols.size = g.symbols.size + names.length := by
  induction names using List.reverseRecOn with
  | nil => rfl
  | append_singleton names name ih =>
    rw [named_snoc, symbols_size_newSymbol, ih, List.length_append, Nat.add_assoc]
    rfl

theorem Unfilled.named {g : TypeGraph} (h : g.Unfilled) (names : List String) :
    (g.named names).Unfilled := by
  induction names using List.reverseRecOn with
  | nil => exact h
  | append_singleton names name ih =>
    rw [named_snoc]
    exact ih.newSymbol name

end TypeGraph

def Definition.member (d : Definition) (symbol : SymbolId) : Member :=
  ⟨d.name, symbol, if d.mutable then .field true else .value⟩

namespace Context

variable {c : Context} {name : String} {stage : Stage} {bindings done : List Expr} {e : Expr}
  {defined : List Definition}

def file (c : Context) (e : Expr) : Context :=
  { c with
    definitions := c.definitions ++ e.definition?.toList
    extensions := c.extensions ++ e.extension?.toList
    expressions := c.expressions ++ e.expression?.toList }

def typesOf (bindings : List Expr) : List DeclaredType :=
  (numbered Prod.fst [] Prelude.graph.symbols.size
    (bindings.filterMap Tree.Node.declaredType?)).map fun x => ⟨⟨x.1.1, ⟨x.2⟩⟩, x.1.2⟩

def valuesOf (bindings : List Expr) (defined : List Definition) : List ModuleValue :=
  (numbered Definition.name (Tree.typeNames bindings)
    (Prelude.graph.symbols.size + (Tree.typeNames bindings).length) defined).map
      fun x => ⟨x.1, x.1.member ⟨x.2⟩⟩

/-- The types and the values that a module declares. -/
def declarations (c : Context) : List Declaration :=
  c.declared.map (fun d => .type d.entry) ++ c.values.map fun v => .value v.member

def entered (name : String) (stage : Stage) (bindings : List Expr) : Context :=
  { initial name with
    stage
    scope := ⟨(typesOf bindings).map fun d => .type d.entry, Prelude.scope⟩
    declared := typesOf bindings
    definitions := bindings.filterMap Tree.Node.definition?
    extensions := bindings.filterMap Tree.Node.extension?
    expressions := bindings.filterMap Tree.Node.expression?
    inference := .initial (Prelude.graph.named (Tree.typeNames bindings)) Prelude.scope
    diagnostics := (Tree.losingTypes bindings).map fun e => ⟨e.span, .duplicateSymbol⟩ }

def valued (name : String) (bindings : List Expr) (defined : List Definition) : Context :=
  { entered name .entered bindings with
    scope := ⟨(typesOf bindings).map (fun d => .type d.entry) ++
      (valuesOf bindings defined).map fun v => .value v.member, Prelude.scope⟩
    definitions := []
    values := valuesOf bindings defined
    inference := .initial ((Prelude.graph.named (Tree.typeNames bindings)).named
      (List.replicate defined.length "")) Prelude.scope
    diagnostics := (Tree.losingTypes bindings).map (fun e => ⟨e.span, .duplicateSymbol⟩) ++
      (losers (some ∘ Definition.name) (Tree.typeNames bindings) defined).map
        fun d => ⟨d.node.span, .duplicateSymbol⟩ }

/-- The scope of a module is frozen once its values are declared. -/
def frozen (c : Context) : Context :=
  { c with
    scope := c.scope.freeze.2
    root := some c.scope.freeze.1
    inference := { c.inference with scope := c.scope.freeze.1 } }

def named (name : String) (bindings : List Expr) : Context :=
  (valued name bindings (bindings.filterMap Tree.Node.definition?)).frozen

theorem typesOf_map (bindings : List Expr) :
    (typesOf bindings).map (fun d => (d.entry.name, d.members)) =
      winners (some ∘ Prod.fst) [] (bindings.filterMap Tree.Node.declaredType?) := by
  rw [← map_fst_numbered (k := Prelude.graph.symbols.size), typesOf, List.map_map]
  rfl

theorem valuesOf_map (bindings : List Expr) (defined : List Definition) :
    (valuesOf bindings defined).map ModuleValue.definition =
      winners (some ∘ Definition.name) (Tree.typeNames bindings) defined := by
  rw [← map_fst_numbered (k := Prelude.graph.symbols.size + (Tree.typeNames bindings).length),
    valuesOf, List.map_map]
  rfl

theorem member_of_mem_valuesOf {v : ModuleValue} (h : v ∈ valuesOf bindings defined) :
    v.member = v.definition.member v.member.type := by
  obtain ⟨x, -, rfl⟩ := List.mem_map.mp h
  rfl

theorem names_typesOf (bindings : List Expr) :
    (typesOf bindings).map (fun d => d.entry.name) = (winners (some ∘ Prod.fst) []
      (bindings.filterMap Tree.Node.declaredType?)).filterMap (some ∘ Prod.fst) := by
  rw [← typesOf_map, List.filterMap_eq_map, List.map_map]
  rfl

theorem names_valuesOf (bindings : List Expr) (defined : List Definition) :
    (valuesOf bindings defined).map (fun v => v.member.name) =
      (winners (some ∘ Definition.name) (Tree.typeNames bindings) defined).filterMap
        (some ∘ Definition.name) := by
  rw [← valuesOf_map, List.filterMap_eq_map, List.map_map]
  apply List.map_congr_left
  intro v hv
  rw [member_of_mem_valuesOf hv]
  rfl

theorem mem_names_typesOf (bindings : List Expr) (x : String) :
    x ∈ (typesOf bindings).map (fun d => d.entry.name) ↔ x ∈ Tree.typeNames bindings := by
  rw [names_typesOf, mem_names_winners, List.filterMap_eq_map]
  simp [Tree.typeNames]

theorem mem_names_valuesOf (bindings : List Expr) (defined : List Definition) (x : String) :
    x ∈ (valuesOf bindings defined).map (fun v => v.member.name) ↔
      x ∈ defined.map Definition.name ∧ x ∉ Tree.typeNames bindings := by
  rw [names_valuesOf, mem_names_winners, List.filterMap_eq_map]

end Context

namespace Build

open Context

variable {c : Context} {name label : String} {stage : Stage} {bindings done : List Expr}
  {defined : List Definition} {d : SymbolId → Declaration} {span : Span}
  {store : SymbolId → Context → Context} {s : SymbolId} {e : Expr}

theorem enterScope_eq (d : Declaration) : enterScope d c =
    .ok (c.scope.enter d).1.2 { c with scope := (c.scope.enter d).2 } := rfl

theorem declare_of_free (hs : (c.graph.newSymbol label).1 = s)
    (h : (d s).name ∉ c.scope.live.map Declaration.name) :
    (do
      let symbol ← newSymbol label
      if ← enterScope (d symbol) then modify (store symbol)
      else report span .duplicateSymbol) c = .ok () (store s
        { c.setGraph (c.graph.newSymbol label).2 with
          scope := { c.scope with live := c.scope.live ++ [d s] } }) := by
  have hnone : lookup? (Named.name (d s)) c.scope.live = none :=
    lookup?_eq_none_iff.mpr fun d' hd' heq => h (List.mem_map.mpr ⟨d', hd', heq⟩)
  have hnew : newSymbol label c = .ok s (c.setGraph (c.graph.newSymbol label).2) := hs ▸ rfl
  have hscope : (c.setGraph (c.graph.newSymbol label).2).scope = c.scope := rfl
  rw [bind_of_ok hnew, bind_of_ok (enterScope_eq _), ScopeBuilder.enter, hscope, hnone]
  rfl

theorem declare_of_taken (hs : (c.graph.newSymbol label).1 = s)
    (h : (d s).name ∈ c.scope.live.map Declaration.name) :
    (do
      let symbol ← newSymbol label
      if ← enterScope (d symbol) then modify (store symbol)
      else report span .duplicateSymbol) c =
        .ok () ((c.setGraph (c.graph.newSymbol label).2).reported ⟨span, .duplicateSymbol⟩) := by
  obtain ⟨old, hold⟩ : ∃ old, lookup? (Named.name (d s)) c.scope.live = some old := by
    refine Option.ne_none_iff_exists'.mp fun hnone => ?_
    obtain ⟨d', hd', heq⟩ := List.mem_map.mp h
    exact lookup?_eq_none_iff.mp hnone d' hd' heq
  have hnew : newSymbol label c = .ok s (c.setGraph (c.graph.newSymbol label).2) := hs ▸ rfl
  have hscope : (c.setGraph (c.graph.newSymbol label).2).scope = c.scope := rfl
  rw [bind_of_ok hnew, bind_of_ok (enterScope_eq _), ScopeBuilder.enter, hscope, hold]
  rfl

theorem enterBinding_file (he : e.declaredType? = none) :
    enterBinding e c = .ok () (c.file e) := by
  cases e with
  | definition note mutable name ascription value =>
    have hnone : (Tree.Node.definition note mutable name ascription value).declaredMembers? = none := by
      rw [Tree.Node.declaredMembers?_eq, he]
      rfl
    have hdefinition := Tree.Node.definition?_of_declaredType? he
    simp only [enterBinding, hnone, file, hdefinition, Tree.Node.extension?, Tree.Node.expression?,
      Option.toList_none, Option.toList_some, List.append_nil]
    rfl
  | extension note target members =>
    simp only [enterBinding, file, Tree.Node.definition?, Tree.Node.extension?,
      Tree.Node.expression?, Option.toList_none, Option.toList_some, List.append_nil]
    rfl
  | literal | ident | selection | call | namedArgument | sequence | typeLiteral | arrayType
  | referenceType =>
    simp only [enterBinding, file, Tree.Node.definition?, Tree.Node.extension?,
      Tree.Node.expression?, Option.toList_none, Option.toList_some, List.append_nil]
    rfl

theorem enterBinding_type {x : String} {members : List (Tree.Member Mark)}
    {note note' : Mark} (he : e = .definition note false x none (some (.typeLiteral note' members))) :
    enterBinding e (entered name stage done) = .ok () (entered name stage (done ++ [e])) := by
  have hdeclared : e.declaredType? = some (x, members) := he ▸ rfl
  have hname : e.typeName? = some x := he ▸ rfl
  have hfiled : e.definition? = none ∧ e.extension? = none ∧ e.expression? = none :=
    he ▸ ⟨rfl, rfl, rfl⟩
  have hnames : Tree.typeNames (done ++ [e]) = Tree.typeNames done ++ [x] := by
    simp [Tree.typeNames, hdeclared]
  have hsymbol : ((entered name stage done).graph.newSymbol x).1 =
      ⟨Prelude.graph.symbols.size + (done.filterMap Tree.Node.declaredType?).length⟩ := by
    have hsize := TypeGraph.size_named Prelude.graph (Tree.typeNames done)
    rw [Tree.typeNames, List.length_map] at hsize
    exact congrArg SymbolId.mk hsize
  have hlive : x ∈ (entered name stage done).scope.live.map Declaration.name ↔
      x ∈ Tree.typeNames done := by
    rw [← mem_names_typesOf, entered, List.map_map]
    rfl
  have hrun : enterBinding e (entered name stage done) = (do
      let symbol ← newSymbol x
      if ← enterScope (.type ⟨x, symbol⟩) then
        modify fun c => { c with declared := c.declared ++ [⟨⟨x, symbol⟩, members⟩] }
      else report e.span .duplicateSymbol : Build Unit) (entered name stage done) := he ▸ rfl
  rw [hrun]
  by_cases hx : x ∈ Tree.typeNames done
  · have htypes : typesOf (done ++ [e]) = typesOf done := by
      rw [typesOf, filterMap_snoc, hdeclared, Option.toList_some, numbered_snoc,
        if_neg, List.append_nil]
      · rfl
      · exact fun hfree => hfree.2 hx
    rw [declare_of_taken (d := fun s => .type ⟨x, s⟩) hsymbol (hlive.mpr hx)]
    simp [entered, reported, setGraph, hnames, htypes, hfiled, TypeGraph.named_snoc,
      Tree.losingTypes, losers_snoc, hname, Tree.filterMap_typeName?, hx]
    rfl
  · have htypes : typesOf (done ++ [e]) = typesOf done ++ [⟨⟨x, ⟨Prelude.graph.symbols.size +
        (done.filterMap Tree.Node.declaredType?).length⟩⟩, members⟩] := by
      rw [typesOf, filterMap_snoc, hdeclared, Option.toList_some, numbered_snoc,
        if_pos ⟨List.not_mem_nil, hx⟩, List.map_append]
      rfl
    rw [declare_of_free (d := fun s => .type ⟨x, s⟩) hsymbol (hlive.not.mpr hx)]
    simp [entered, setGraph, hnames, htypes, hfiled, TypeGraph.named_snoc, Tree.losingTypes,
      losers_snoc, hname, Tree.filterMap_typeName?, hx]
    rfl

theorem enterBinding_entered (e : Expr) : enterBinding e (entered name stage done) =
    .ok () (entered name stage (done ++ [e])) := by
  cases he : e.declaredType? with
  | none =>
    have hname : e.typeName? = none := by rw [Tree.Node.typeName?, he]; rfl
    rw [enterBinding_file he]
    simp [file, entered, typesOf, Tree.typeNames, Tree.losingTypes, losers_snoc, hname, he,
      filterMap_snoc, -List.filterMap_append]
  | some declared =>
    obtain ⟨note, note', he⟩ := Tree.Node.declaredType?_eq_some he
    exact enterBinding_type he

theorem enter_eq (name : String) (root : Expr) :
    enter root (.initial name) = .ok () (entered name .entered root.bindings) := by
  obtain ⟨_, c, hrun, rfl⟩ := Ends.forM_done (f := enterBinding)
    (I := fun done c => c = entered name .unbound done) root.bindings
    (fun done e _ c hc => ⟨(), _, hc ▸ enterBinding_entered e, rfl⟩) (c := .initial name) rfl
  show (root.bindings.forM enterBinding >>= _) _ = _
  rw [bind_of_ok hrun]
  rfl

theorem declareValue_valued (d : Definition) : declareValue d (valued name bindings defined) =
    .ok () (valued name bindings (defined ++ [d])) := by
  have hsymbol : ((valued name bindings defined).graph.newSymbol "").1 =
      ⟨Prelude.graph.symbols.size + (Tree.typeNames bindings).length + defined.length⟩ := by
    refine congrArg SymbolId.mk ((TypeGraph.size_named ..).trans ?_)
    rw [TypeGraph.size_named, List.length_replicate]
  have hlive : d.name ∈ (valued name bindings defined).scope.live.map Declaration.name ↔
      d.name ∈ Tree.typeNames bindings ∨ d.name ∈ defined.map Definition.name := by
    have htypes := mem_names_typesOf bindings d.name
    have hvalues := mem_names_valuesOf bindings defined d.name
    rw [valued, List.map_append, List.mem_append, List.map_map, List.map_map]
    tauto
  have hgraph : (Prelude.graph.named (Tree.typeNames bindings)).named
      (List.replicate (defined.length + 1) "") = (((Prelude.graph.named
        (Tree.typeNames bindings)).named (List.replicate defined.length "")).newSymbol "").2 := by
    rw [List.replicate_succ', TypeGraph.named_snoc]
  by_cases hx : d.name ∈ Tree.typeNames bindings ∨ d.name ∈ defined.map Definition.name
  · have hvalues : valuesOf bindings (defined ++ [d]) = valuesOf bindings defined := by
      rw [valuesOf, numbered_snoc, if_neg, List.append_nil]
      · rfl
      · exact fun hfree => hx.elim hfree.1 hfree.2
    refine (declare_of_taken (d := fun s => .value (d.member s)) hsymbol (hlive.mpr hx)).trans ?_
    simp [valued, reported, setGraph, hvalues, hgraph, losers_snoc, hx, -List.mem_map]
    rfl
  · have hvalues : valuesOf bindings (defined ++ [d]) = valuesOf bindings defined ++
        [⟨d, d.member ⟨Prelude.graph.symbols.size + (Tree.typeNames bindings).length +
          defined.length⟩⟩] := by
      rw [valuesOf, numbered_snoc, if_pos (not_or.mp hx), List.map_append]
      rfl
    refine (declare_of_free (d := fun s => .value (d.member s)) hsymbol (hlive.not.mpr hx)).trans ?_
    simp [valued, setGraph, hvalues, hgraph, losers_snoc, hx, Definition.member, -List.mem_map]
    rfl

theorem forM_declareValue_eq (name : String) (bindings : List Expr) :
    (bindings.filterMap Tree.Node.definition?).forM declareValue
        { entered name .entered bindings with definitions := [] } =
      .ok () (valued name bindings (bindings.filterMap Tree.Node.definition?)) := by
  obtain ⟨_, c, hrun, rfl⟩ := Ends.forM_done (f := declareValue)
    (I := fun defined c => c = valued name bindings defined) (bindings.filterMap Tree.Node.definition?)
    (fun done d _ c hc => ⟨(), _, hc ▸ declareValue_valued d, rfl⟩) (c := valued name bindings []) rfl
  have hstart : valued name bindings [] = { entered name .entered bindings with definitions := [] } := by
    simp only [valued, valuesOf, numbered, winners, losers, sift, List.zipIdx_nil, siftAfter,
      List.map_nil, List.append_nil]
    rfl
  rwa [hstart] at hrun

theorem declareValues_entered (name : String) (bindings : List Expr) :
    declareValues (entered name .entered bindings) = .ok () (named name bindings) := by
  show ((bindings.filterMap Tree.Node.definition?).forM declareValue >>= _) _ = _
  rw [bind_of_ok (forM_declareValue_eq name bindings)]
  rfl

/-- Declares all names of a module. -/
def declareAll (root : Expr) : Build Unit := do
  enter root
  declareValues

theorem declareAll_eq (name : String) (root : Expr) :
    declareAll root (.initial name) = .ok () (named name root.bindings) :=
  (bind_of_ok (enter_eq name root)).trans (declareValues_entered name root.bindings)

end Build
end Binder
