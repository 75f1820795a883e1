import Binder.Proofs.Module.Unresolved

/-! The first declaration of a name wins. Types are declared while a module is entered and values only
afterwards, so that a type wins against any value of its name, wherever the two stand. Whatever loses is
reported once and plays no part in the rest of a build: none of its nodes is ever given a type. -/
namespace Binder

open Binder.Tree (Expr Mark NodeId)

variable {spare : List Expr}

namespace Context

variable {c c' i : Context} {bindings done : List Expr} {defined : List Definition} {e : Expr}

theorem Accepts.declared (h : c.Accepts bindings) (hc : c.Declared bindings) :
    c.Declared (Tree.standing bindings) :=
  { hc with
    charge := h.charge
    covers := fun hclean e he => hc.covers hclean e
      ((Tree.perm_bindings bindings).mem_iff.mp (List.mem_append_left _ he)) }

/-- What follows the declaration of all names keeps them and the types that are made, and leaves out
what lost. -/
structure Fulfils (bindings : List Expr) (i c : Context) : Prop where
  made : ∃ f, Build.makeTypes i = .ok () f ∧ f.graph.Grows c.graph ∧ f.graph.names <+: c.graph.names
  declared : c.declared = i.declared
  values : c.values = i.values
  root : c.root = i.root
  diagnostics : i.diagnostics <+: c.diagnostics
  untyped : ∀ e ∈ Tree.duplicates bindings, ∀ x ∈ e.preorder, c.inference.typeOf? x.id = none
  folded : ∀ p ∈ c.constants, ∃ v ∈ c.values, ∃ e, v.definition.value = some e ∧
    p = (v.member.name, (Constant.eval e).1)

/-- Some expressions take no part in a build if none of their nodes are wanted for anything else. -/
theorem Furnished.valuing_beside (h : c.Furnished bindings)
    (honce : ∀ n, Tree.count n (Tree.preorderOf bindings) + Tree.count n spare ≤ 1) :
    c.Valuing c.valueSymbols ((c.values.map ModuleValue.definition).flatMap Definition.nodes ++
      (Tree.preorderOf c.expressions ++ spare)) := by
  have hvaluing := h.valuing fun n => by have := honce n; omega
  refine { hvaluing with once := ?_ }
  intro n
  have hcharge := h.charge n
  have hle := honce n
  have htally : c.inference.tally n = 0 := by
    rw [h.inference]
    rfl
  rw [Tree.count_append, Tree.count_append]
  omega

end Context

namespace Build

open Context

variable {c i : Context} {bindings done : List Expr} {defined : List Definition}

/-- The passes of a build that follow the declaration of all names. -/
def accomplish : Build TypeId := do
  makeTypes
  inferAll
  conclude

theorem build_eq_accomplish (name : String) (root : Expr) :
    build root (.initial name) = (do declareAll root; accomplish) (.initial name) := by
  rw [build_of_unbound rfl]
  simp only [complete, declareAll, accomplish, furnish, bind_assoc]

/-- Nodes that are not wanted for anything stay without a type. -/
theorem tally_of_rest {s : Inference.State} {V : List SymbolId}
    (h : i.Appraised bindings)
    (hspare : i.Valuing V (Tree.preorderOf i.expressions ++ spare))
    (hrun : i.inference.run i.restTasks = (s, .ok ())) (n : NodeId) :
    s.tally n + Tree.count n spare ≤ 1 := by
  obtain ⟨s', hrun', hdone⟩ := h.ready_restTasks.run
  cases hrun.symm.trans hrun'
  have htally := hdone.tally n
  have howed := (owing_restTasks i).nodes n
  have honce := hspare.once n
  have hpledged : i.pledged n = Tree.count n (i.fallbacks.flatMap fun f => f.1.preorder) := by
    rw [pledged, Tree.preorderOf_eq_flatMap, List.flatMap_map]
  rw [Tree.count_append] at howed honce
  omega

theorem accomplish_ends (hdeclared : i.Declared bindings) (h : i.Accepts bindings)
    (honce : ∀ n, Tree.count n (Tree.preorderOf bindings) ≤ 1) :
    Ends accomplish i fun _ c => i.Fulfils bindings c := by
  have hcount : ∀ n, Tree.count n (Tree.preorderOf (Tree.standing bindings)) +
      Tree.count n (Tree.preorderOf (Tree.duplicates bindings)) ≤ 1 := fun n =>
    (count_standing n bindings).trans_le (honce n)
  apply Ends.bind
  apply (makeTypes_ends (h.declared hdeclared)).keep.mono
  rintro _ f ⟨htypes, hf, hresolves⟩
  have hmade : Infers i.extended f := hresolves.infers
  have hV : ∀ v ∈ f.values, v.member.type ∈ f.valueSymbols := fun v hv => List.mem_map_of_mem hv
  refine Ends.bind (Ends.bind (Ends.get (Ends.bind ?_)))
  have hstanding : ∀ n, Tree.count n (Tree.preorderOf (Tree.standing bindings)) ≤ 1 :=
    fun n => (Nat.le_add_right _ _).trans (hcount n)
  apply ((inferValues_ends hf hstanding).and (forM_inferValue_infers f.values hV
    (hf.valuing_beside hcount))).mono
  rintro _ m ⟨⟨hinfers, happraised⟩, hvaluing, -⟩
  obtain ⟨s, hrun, hconcludes⟩ := happraised.run_restTasks
  refine ⟨(), _, inferRest_of_run hrun, ?_⟩
  refine ⟨_, _, conclude_eq m s, ?_⟩
  have hbuilt := built_ended m s
  have hall : Infers i.extended m := hmade.trans hinfers
  have hconstants : m.constants = [] := hall.constants.trans h.constants
  refine
    { made := ⟨f, htypes, (hinfers.graph.trans hconcludes.advances.grows).trans hbuilt.grows,
        (hinfers.names.trans hconcludes.names).trans hbuilt.names⟩
      declared := hall.declared
      values := hbuilt.values.trans hall.values
      root := hbuilt.root.trans hall.root
      diagnostics := ?_
      untyped := ?_
      folded := ?_ }
  · rw [ended, List.append_assoc, List.append_assoc]
    exact hall.diagnostics.trans (List.prefix_append _ _)
  · intro e he x hx
    show s.typeOf? x.id = none
    by_contra hsome
    have htally : 1 ≤ s.tally x.id :=
      Inference.State.one_le_tally (Option.isSome_iff_ne_none.mpr hsome)
    rw [← hinfers.expressions] at hvaluing
    have hle := tally_of_rest happraised hvaluing hrun x.id
    have hone : 1 ≤ Tree.count x.id (Tree.preorderOf (Tree.duplicates bindings)) := by
      rw [Tree.preorderOf_eq_flatMap]
      exact List.countP_pos_iff.mpr ⟨x, List.mem_flatMap.mpr ⟨e, he, hx⟩, by simp⟩
    omega
  · intro p hp
    rw [hbuilt.constants, hconstants, List.nil_append] at hp
    obtain ⟨v, hv, hrecorded⟩ := List.mem_filterMap.mp hp
    obtain ⟨e, he, hrecorded⟩ := Option.bind_eq_some_iff.mp hrecorded
    refine ⟨v, hbuilt.values ▸ hv, e, he, ?_⟩
    split at hrecorded
    · exact (Option.some.inj hrecorded).symm
    · cases hrecorded

end Build

namespace Context

variable {i c : Context} {bindings : List Expr}

/-- Which definitions of a module count, where `i` is the context in which all names are declared and
`c` the one at the end of a build. -/
structure Precedence (bindings : List Expr) (i c : Context) : Prop where
  /-- the first type of a name bears it -/
  find_type : ∀ x e, bindings.find? (fun e => e.typeName? = some x) = some e →
    ∃ d ∈ c.declared, e.declaredType? = some (x, d.members) ∧ c.find? x = some (.type d.entry)
  /-- if there is no type of the name, the first value does -/
  find_value : ∀ x e, x ∉ Tree.typeNames bindings →
    bindings.find? (fun e => e.valueName? = some x) = some e →
    ∃ v ∈ c.values, e.definition? = some v.definition ∧ c.find? x = some (.value v.member)
  find_other : ∀ x, x ∉ Tree.typeNames bindings → x ∉ Tree.valueNames bindings →
    c.find? x = Prelude.scope.find? x
  types : c.declared.map (fun d => (d.entry.name, d.members)) =
    (Tree.winningTypes bindings).filterMap Tree.Node.declaredType?
  values : c.values.map ModuleValue.definition =
    (Tree.winningValues bindings).filterMap Tree.Node.definition?
  names : (c.declarations.map Declaration.name).Nodup
  /-- each definition wins or is a duplicate, and the rest defines nothing -/
  shares : (Tree.winningTypes bindings ++ Tree.winningValues bindings ++ Tree.bystanders bindings ++
    Tree.duplicates bindings).Perm bindings
  /-- duplicates are reported once each, and nothing else is until all names are declared -/
  reports : i.diagnostics = (Tree.duplicates bindings).map fun e => ⟨e.span, .duplicateSymbol⟩
  reported : i.diagnostics <+: c.diagnostics
  /-- from there on a build knows of no duplicate -/
  extensions : i.extensions = bindings.filterMap Tree.Node.extension?
  expressions : i.expressions = bindings.filterMap Tree.Node.expression?
  definitions : i.definitions = [] ∧ i.declared = c.declared ∧ i.values = c.values
  untyped : ∀ e ∈ Tree.duplicates bindings, ∀ x ∈ e.preorder, c.inference.typeOf? x.id = none
  folded : ∀ p ∈ c.constants, ∃ v ∈ c.values, ∃ e, v.definition.value = some e ∧
    p = (v.member.name, (Constant.eval e).1)

theorem Accepts.precedence (h : i.Accepts bindings) (hfulfils : i.Fulfils bindings c)
    (hroot : i.root = some i.rootScope) : Precedence bindings i c := by
  have hfind : ∀ x, c.find? x = i.find? x := by
    intro x
    rw [find?, find?, hfulfils.root, hroot]
  have hsettled : c.Settlement bindings :=
    h.toSettlement.congr hfulfils.declared hfulfils.values hfind
  exact
    { find_type := fun _ _ => hsettled.find_type
      find_value := fun _ _ => hsettled.find_value
      find_other := fun _ => hsettled.find_other
      types := hsettled.types
      values := hsettled.values
      names := hsettled.names
      shares := Tree.perm_bindings bindings
      reports := h.reports
      reported := hfulfils.diagnostics
      extensions := h.extensions
      expressions := h.expressions
      definitions := ⟨h.definitions, hfulfils.declared.symm, hfulfils.values.symm⟩
      untyped := hfulfils.untyped
      folded := hfulfils.folded }

/-- The first declaration of a name wins, and types come before values. -/
theorem first_declaration_wins {d : Document} {k k' : Nat} {root : Expr} (name : String)
    (hlower : d.lower k = .ok root k') :
    ∃ i c t, Build.declareAll root (initial name) = .ok () i ∧
      (initial name).build root = (c, .ok t) ∧ Precedence root.bindings i c := by
  have honce := Document.count_lower_le_one hlower
  have haccepts := accepts_named name root.bindings
  have hdeclared := declared_named name root.bindings
  have hi := Build.declareAll_eq name root
  obtain ⟨t, c, hc, hfulfils⟩ := Build.accomplish_ends hdeclared haccepts honce
  refine ⟨_, c, t, hi, ?_, haccepts.precedence hfulfils hdeclared.root⟩
  rw [Context.build, after, Build.build_eq_accomplish, Build.bind_of_ok hi, hc]

/-- Values and types that compete for three names, one of which the prelude offers as well. -/
def rivalNames : Document where
  bindings := [
    .definition none false "Pair" none (some (.literal none (.int 1))),
    .sequence none [
      .definition none false "Pair" none (some (.typeLiteral none [.field "size" (.ident none "Int") true])),
      .definition none true "size" none (some (.literal none (.int 2)))],
    .definition none false "size" none (some (.literal none (.string "three"))),
    .definition none false "Pair" none (some (.typeLiteral none [])),
    .definition none false "Int" none (some (.literal none (.int 3)))]

def rivalRoot : Expr := rivalNames.root

theorem first_declaration_wins_rivalNames : rivalNames.lower 0 = .ok rivalRoot 18 ∧
    ∃ i c t, Build.declareAll rivalRoot (initial "main") = .ok () i ∧
      (initial "main").build rivalRoot = (c, .ok t) ∧ Precedence rivalRoot.bindings i c :=
  have hlower : rivalNames.lower 0 = .ok rivalRoot 18 := rfl
  ⟨hlower, first_declaration_wins "main" hlower⟩

end Context

end Binder
