import Binder.Proofs.Module.Reordering

/-! Making the types of a module. Two modules that differ in the order of their bindings have the same
types under the same numbers once their types are made, and the same fallbacks are kept for later. -/
namespace Binder

open Binder.Tree (Expr Mark Node eraseMembers)

variable {d : DeclaredType} {x : Extension}

namespace Build

open Context

variable {σ : Shift} {c c' c₁ c₁' i : Context} {name : String} {root : Expr} {ids : List BuilderId}

/-- Builders that were opened for declared types of the same shape, and the plans made with them. -/
structure OpenedAlike (σ : Shift)
    (o o' : BuilderId × List (Tree.Member Mark) × List Plan) : Prop where
  builder : σ.builder o.1 o'.1
  members : eraseMembers o'.2.1 = eraseMembers o.2.1
  unsized : Unsized (Tree.preorderMembers o.2.1)
  plans : Plans σ o.2.2 o'.2.2

/-- Declared types of the same shape under corresponding symbols. -/
structure DeclaredAlike (σ : Shift) (d d' : DeclaredType) : Prop where
  symbol : σ.pairing.symbol d.entry.symbol d'.entry.symbol
  members : eraseMembers d'.members = eraseMembers d.members
  unsized : Unsized (Tree.preorderMembers d.members)

theorem openType_inStep {d' : DeclaredType} (h : DeclaredAlike σ d d') :
    InStep σ (openType d) (openType d') (OpenedAlike σ) := by
  apply (newBuilder_inStep h.symbol .none .none).bind
  intro id id' hid
  apply (declareNested_inStep h.members hid).bind
  intro plans plans' hplans
  exact .pure ⟨hid, h.members, h.unsized, hplans⟩

theorem declareTypes_parallel {ids' : List BuilderId} (h : Parallel σ c c')
    (hdeclared : List.Forall₂ (DeclaredAlike σ) c.declared c'.declared)
    (hp : declareTypes c = .ok ids c₁) (hp' : declareTypes c' = .ok ids' c₁') :
    Parallel σ c₁ c₁' ∧ List.Forall₂ σ.builder ids ids' := by
  rw [declareTypes, get_bind] at hp hp'
  apply InStep.at_end _ h hp hp'
  apply (InStep.mapM hdeclared openType_inStep).bind
  intro opened opened' hopened
  refine (InStep.forM hopened ?_).bind ?_
  · intro o o' ho
    apply (populate_inStep _ ho.members ho.unsized ho.builder).bind
    intro _ _ _
    exact populateNested_inStep _ ho.members ho.unsized ho.plans
  · intro _ _ _
    apply InStep.pure
    rw [List.forall₂_map_left_iff, List.forall₂_map_right_iff]
    exact hopened.imp fun _ _ ho => ho.builder

/-- Extensions of the same shape. -/
structure ExtendedAlike (x x' : Extension) : Prop where
  shape : x'.shape = x.shape
  target : Unsized x.target.preorder
  members : Unsized (Tree.preorderMembers x.members)

theorem extend_inStep {x' : Extension} (h : ExtendedAlike x x') :
    InStep σ (extend x) (extend x') fun _ _ => True := by
  obtain ⟨htarget, hmembers⟩ := Prod.mk.inj h.shape
  apply (resolveType_inStep x.target htarget h.target .none).bind
  intro target target' hpair
  apply InStep.get.bind
  intro c c' hc
  rw [hc.graph.isError hpair, hc.graph.isBound hpair]
  split
  · exact .pure trivial
  cases hbound : c.graph.isBound target with
  | true => cases c.builderOf? target <;> cases c'.builderOf? target' <;> exact report_inStep ..
  | false =>
    have hnone : c.graph.typeOf? target = none := by
      rw [TypeGraph.typeOf?, TypeGraph.isBound_eq_false_iff.mp hbound]
      rfl
    have hbuilder := hc.builderOf hpair hnone
    generalize c.builderOf? target = id at hbuilder
    generalize c'.builderOf? target' = id' at hbuilder
    cases hbuilder with
    | none => exact report_inStep ..
    | some hid =>
      apply (declareNested_inStep hmembers hid).bind
      intro plans plans' hplans
      apply (populate_inStep x.members hmembers h.members hid).bind
      intro _ _ _
      exact populateNested_inStep x.members hmembers h.members hplans

theorem extendTypes_parallel (h : Parallel σ c c')
    (hextensions : List.Forall₂ ExtendedAlike c.extensions c'.extensions)
    (hp : extendTypes c = .ok () c₁) (hp' : extendTypes c' = .ok () c₁') : Parallel σ c₁ c₁' := by
  rw [extendTypes, extendTypesBy, get_bind] at hp hp'
  refine (InStep.at_end (A := fun _ _ => True) (InStep.bind (A := fun _ _ => True) ?_ fun _ => ?_)
    h hp hp').1
  · exact .modifyGet fun hc => ⟨{ hc with nesting := hc.nesting, builderOf := hc.builderOf }, trivial⟩
  · exact InStep.forM hextensions extend_inStep

/-- The stages of furnishing: in `c₁` the values are declared, in `c₂` the types are filled, in `c₃` they
are extended, and in `i` they are made. -/
structure Stages (name : String) (root : Expr) (ids : List BuilderId) (c₁ c₂ c₃ i : Context) :
    Prop where
  declares : c₁ = named name root.bindings
  fills : declareTypes c₁ = .ok ids c₂
  extended : extendTypes c₂ = .ok () c₃
  finishes : ids.forM finishTypes c₃ = .ok () i
  declared : c₁.Declared root.bindings
  extensions : c₂.extensions = c₁.extensions
  resolves : Resolves c₁.valueSymbols c₁.extended i

theorem exists_stages (h : (do enter root; furnish) (initial name) = .ok () i) :
    ∃ ids c₁ c₂ c₃, Stages name root ids c₁ c₂ c₃ i := by
  rw [bind_of_ok (enter_eq name root), furnish, bind_of_ok (declareValues_entered ..),
    makeTypes_eq] at h
  obtain ⟨ids, c₂, hfill, h⟩ := exists_of_bind_ok h
  obtain ⟨_, c₃, hextend, hfinish⟩ := exists_of_bind_ok h
  have hdeclared := declared_named name root.bindings
  have hfilled := (declareTypes_ends hdeclared).of_eq hfill
  have hextended := (extendTypes_ends hfilled.resolved.resolvable).of_eq hextend
  have hfinished := (finishAll_ends hextended.resolved.resolvable).of_eq hfinish
  refine ⟨ids, _, c₂, c₃, rfl, hfill, hextend, hfinish, hdeclared, ?_, ?_⟩
  · exact hfilled.resolved.resolves.unchanged Context.extensions fun _ => rfl
  · exact (hfilled.extended.trans (hextended.trans hfinished)).resolved.resolves

/-- Whatever neither declared types nor extensions have a part in is the same afterwards. -/
theorem Stages.unchanged {c₁ c₂ c₃ : Context}
    {β : Type} (h : Stages name root ids c₁ c₂ c₃ i) (f : Context → β)
    (hf : ∀ x : Context, f x.backdrop = f x) (hextended : f c₁.extended = f c₁) : f i = f c₁ :=
  (h.resolves.unchanged f hf).trans hextended

end Build

theorem Tree.preorder_subset_of_mem {e : Expr} {bindings : List Expr} (h : e ∈ bindings) :
    e.preorder ⊆ Tree.preorderOf bindings := by
  intro x hx
  rw [Tree.preorderOf_eq_flatMap]
  exact List.mem_flatMap.mpr ⟨e, h, hx⟩

namespace Context

open Build (Unsized)

variable {c c' i i' : Context} {bindings bindings' : List Expr}

theorem Roll.unsized_members (h : c.Roll bindings) (hsize : Unsized (Tree.preorderOf bindings))
    (hd : d ∈ c.declared) : Unsized (Tree.preorderMembers d.members) := by
  have hmem : (d.entry.name, d.members) ∈ bindings.filterMap Node.declaredType? := by
    rw [← h.declared]
    exact List.mem_map_of_mem hd
  obtain ⟨e, he, hdeclared⟩ := List.mem_filterMap.mp hmem
  have hnodes := hsize.mono (Tree.preorder_subset_of_mem he)
  obtain ⟨note, note', rfl⟩ := Node.declaredType?_eq_some hdeclared
  exact hnodes.mono (by simp [Node.preorder, Tree.preorderOption])

theorem Roll.unsized_extension (h : c.Roll bindings) (hsize : Unsized (Tree.preorderOf bindings))
    (hx : x ∈ c.extensions) :
    Unsized x.target.preorder ∧ Unsized (Tree.preorderMembers x.members) := by
  rw [h.extensions] at hx
  obtain ⟨e, he, hextension⟩ := List.mem_filterMap.mp hx
  have hnodes := hsize.mono (Tree.preorder_subset_of_mem he)
  cases e with
  | extension note target members =>
    cases hextension
    exact ⟨hnodes.mono (by simp [Node.preorder]), hnodes.mono (by simp [Node.preorder])⟩
  | _ => cases hextension

theorem Roll.unsized_ascription (h : c.Roll bindings) (hsize : Unsized (Tree.preorderOf bindings))
    {v : ModuleValue} (hv : v ∈ c.values) {a : Expr} (ha : v.definition.ascription = some a) :
    Unsized a.preorder := by
  have hmem : v.definition ∈ bindings.filterMap Node.definition? := by
    rw [← h.definitions]
    exact List.mem_map_of_mem hv
  obtain ⟨e, he, hdefinition⟩ := List.mem_filterMap.mp hmem
  have hnodes := hsize.mono (Tree.preorder_subset_of_mem he)
  rw [Node.definition?_eq_some hdefinition, ha] at hnodes
  exact hnodes.mono (by simp [Node.preorder, Tree.preorderOption])

theorem Roll.declaredAlike (h : c.Roll bindings) (h' : c'.Roll bindings')
    (hr : Tree.Reordered bindings bindings') (hd : c.Declared bindings)
    (hsize : Unsized (Tree.preorderOf bindings)) {symbols types : Nat}
    {hvalues : ∀ x ∈ c.valueSymbols, Prelude.graph.symbols.size ≤ x.index ∧ x.index < symbols}
    {hsymbols : Prelude.graph.symbols.size ≤ symbols} :
    List.Forall₂ (Build.DeclaredAlike (Shift.same c.valueSymbols symbols types hvalues hsymbols))
      c.declared c'.declared := by
  have hmem : ∀ d ∈ c.declared, d ∈ c.declared := fun _ hd => hd
  refine ((List.forall₂_and_left _ _).mpr ⟨hmem, h.declared_rel h' hr⟩).imp ?_
  rintro d d' ⟨hmem, hentry, hmembers⟩
  have hfree := hd.free d.entry.symbol (List.mem_map_of_mem hmem)
  exact ⟨Shift.same_symbol_iff.mpr ⟨by rw [hentry], hfree.notMem⟩, hmembers,
    h.unsized_members hsize hmem⟩

theorem Roll.extendedAlike (h : c.Roll bindings) (h' : c'.Roll bindings')
    (hr : Tree.Reordered bindings bindings') (hsize : Unsized (Tree.preorderOf bindings)) :
    List.Forall₂ Build.ExtendedAlike c.extensions c'.extensions := by
  have hshapes := hr.extensions
  rw [← h.extensions, ← h'.extensions] at hshapes
  have hmem : ∀ x ∈ c.extensions, x ∈ c.extensions := fun _ hx => hx
  refine ((List.forall₂_and_left _ _).mpr ⟨hmem, forall₂_of_map_eq hshapes.symm⟩).imp ?_
  rintro x x' ⟨hmem, hshape⟩
  obtain ⟨htarget, hmembers⟩ := h.unsized_extension hsize hmem
  exact ⟨hshape.symm, htarget, hmembers⟩

/-- What a module declares is found under its name, and no name is declared twice. Values have symbols
of their own, which are nameless. -/
structure Tabled (c : Context) : Prop where
  root : c.root = some c.rootScope
  members : ∀ v ∈ c.values, v.member = v.definition.member v.member.type
  symbols : c.valueSymbols.Nodup
  nameless : ∀ x ∈ c.valueSymbols, c.graph.nameOf x = ""
  names : (c.declarations.map Declaration.name).Nodup
  find : ∀ name, c.find? name = (lookup? name c.declarations).or (Prelude.scope.find? name)

/-- Two modules, made of the same bindings in another order, whose types are made. -/
structure Aligned (i i' : Context) : Prop where
  parallel : ∃ symbols types hvalues hsymbols,
    Parallel (Shift.same i.valueSymbols symbols types hvalues hsymbols) i i'
  valueSymbols : i'.valueSymbols = i.valueSymbols
  entries : i'.declared.map DeclaredType.entry = i.declared.map DeclaredType.entry
  shapes : (i'.values.map fun v => v.definition.shape).Perm (i.values.map fun v => v.definition.shape)
  expressions : (i'.expressions.map Node.erase).Perm (i.expressions.map Node.erase)
  unsized : ∀ v ∈ i.values, ∀ a, v.definition.ascription = some a → Unsized a.preorder
  tabled : i.Tabled
  tabled' : i'.Tabled

theorem Roll.nodup_valueSymbols (h : c.Roll bindings) : c.valueSymbols.Nodup := by
  have hindices : (c.valueSymbols.map SymbolId.index).Nodup := by
    rw [Context.valueSymbols, List.map_map]
    exact h.valueSymbols ▸ List.nodup_range'
  exact hindices.of_map

theorem Roll.nameOf_value (h : c.Roll bindings) {x : SymbolId} (hx : x ∈ c.valueSymbols) :
    c.graph.nameOf x = "" := by
  have hle : Prelude.graph.symbols.size + c.declared.length ≤ x.index := by
    obtain ⟨v, hv, rfl⟩ := List.mem_map.mp hx
    have hmem : v.member.type.index ∈ c.values.map fun v => v.member.type.index :=
      List.mem_map_of_mem hv
    rw [h.valueSymbols, List.mem_range'_1] at hmem
    exact hmem.1
  rw [TypeGraph.nameOf_eq, h.graph, TypeGraph.names_named, TypeGraph.names_named,
    List.getElem?_append_right (by simpa [TypeGraph.length_names] using hle), List.getElem?_replicate]
  split <;> rfl

theorem Roll.tabled (h : c.Roll bindings) (hd : c.Declared bindings) {V : List SymbolId}
    (hr : Resolves V c.extended i) : i.Tabled := by
  have hroot : i.root = some i.rootScope := by
    rw [hr.unchanged Context.root fun _ => rfl, hr.unchanged Context.rootScope fun _ => rfl]
    exact hd.root
  have hvalues : i.values = c.values := hr.unchanged Context.values fun _ => rfl
  have hdeclarations : i.declarations = c.declarations := hr.unchanged Context.declarations fun _ => rfl
  have hsymbols : i.valueSymbols = c.valueSymbols := hr.unchanged Context.valueSymbols fun _ => rfl
  refine ⟨hroot, hvalues ▸ h.members, hsymbols ▸ h.nodup_valueSymbols, ?_, hdeclarations ▸ h.names, ?_⟩
  · intro x hx
    rw [hsymbols] at hx
    have hold : c.graph.HasSymbol x := (hd.standing.graph.values x hx).2
    rw [TypeGraph.nameOf_eq_of_prefix hr.names hold]
    exact h.nameOf_value hx
  intro name
  rw [hr.find?, hdeclarations]
  exact h.find name

end Context

namespace Build

open Context

/-- Modules that differ in the order of their bindings are furnished alike. -/
theorem furnish_aligned {name : String} {root root' : Expr} {i i' : Context}
    (hr : Tree.Reordered root.bindings root'.bindings) (hsize : Unsized (Tree.preorderOf root.bindings))
    (hi : (do enter root; furnish) (initial name) = .ok () i)
    (hi' : (do enter root'; furnish) (initial name) = .ok () i') (hclean : i.diagnostics = []) :
    Aligned i i' ∧ i'.diagnostics = [] := by
  obtain ⟨ids, c₁, c₂, c₃, hs⟩ := exists_stages hi
  obtain ⟨ids', c₁', c₂', c₃', hs'⟩ := exists_stages hi'
  obtain rfl := hs.declares
  obtain rfl := hs'.declares
  have hclean₁ : (named name root.bindings).diagnostics = [] := hs.resolves.clean hclean
  have hclean₁' : (named name root'.bindings).diagnostics = [] :=
    diagnostics_named.mpr (hr.nodup_iff.mpr (diagnostics_named.mp hclean₁))
  have hr₁ := roll_named hclean₁
  have hr₁' := roll_named hclean₁'
  have hparallel := hr₁.parallel hr₁' hr hs.declared hs'.declared hclean₁ hclean₁'
    hs.declared.standing.graph.values
  obtain ⟨hparallel₂, hids⟩ := declareTypes_parallel hparallel
    (hr₁.declaredAlike hr₁' hr hs.declared hsize) hs.fills hs'.fills
  have hextensions : List.Forall₂ ExtendedAlike c₂.extensions c₂'.extensions := by
    rw [hs.extensions, hs'.extensions]
    exact hr₁.extendedAlike hr₁' hr hsize
  have hparallel₃ := extendTypes_parallel hparallel₂ hextensions hs.extended hs'.extended
  obtain ⟨hparallel₄, -⟩ := (InStep.forM hids finishTypes_inStep).at_end hparallel₃ hs.finishes
    hs'.finishes
  have hsymbols := hs.unchanged Context.valueSymbols (fun _ => rfl) rfl
  have hsymbols' := hs'.unchanged Context.valueSymbols (fun _ => rfl) rfl
  refine ⟨?_, hparallel₄.clean.mp hclean⟩
  refine
    { parallel := ?_, valueSymbols := ?_, entries := ?_, shapes := ?_, expressions := ?_
      unsized := ?_, tabled := hr₁.tabled hs.declared hs.resolves
      tabled' := hr₁'.tabled hs'.declared hs'.resolves }
  · rw [hsymbols]
    exact ⟨_, _, _, _, hparallel₄⟩
  · rw [hsymbols, hsymbols', hr₁.valueSymbols_eq hr₁' hr]
  · rw [hs.unchanged Context.declared (fun _ => rfl) rfl,
      hs'.unchanged Context.declared (fun _ => rfl) rfl, hr₁.entries_eq hr₁' hr]
  · have hshapes := hr.definitions
    rw [← hr₁.definitions, ← hr₁'.definitions, List.map_map, List.map_map] at hshapes
    rw [hs.unchanged Context.values (fun _ => rfl) rfl,
      hs'.unchanged Context.values (fun _ => rfl) rfl]
    exact hshapes
  · have hexpressions := hr.expressions
    rw [← hr₁.expressions, ← hr₁'.expressions] at hexpressions
    rw [hs.unchanged Context.expressions (fun _ => rfl) rfl,
      hs'.unchanged Context.expressions (fun _ => rfl) rfl]
    exact hexpressions
  · intro v hv a ha
    rw [hs.unchanged Context.values (fun _ => rfl) rfl] at hv
    exact hr₁.unsized_ascription hsize hv ha

end Build
end Binder
