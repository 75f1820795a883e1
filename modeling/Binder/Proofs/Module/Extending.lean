import Binder.Proofs.Module.Paths

/-! The targets of extensions. A type expression outside of all literals means a declared type only if it
spells the path of one; whatever else it means is finished, and an extension of it is refused. So an
extension adds to the declared types what its members nest in the type at the path of its target. -/
namespace Binder

open Binder.Tree (Expr Mark)

variable {V : List SymbolId} {roots : List BuilderId} {c c' : Context} {p : Path} {ps : List Path}
  {declared : List DeclaredType} {i : BuilderId} {b : TypeBuilder} {s : SymbolId}

namespace Context

theorem Standing.isBound_of_findType? (h : c.Standing V roots) {d : TypeDef} {name : String}
    (hd : c.graph.typeOf? s = some d) {s' : SymbolId} (hfind : d.findType? name = some s') :
    c.graph.isBound s' := by
  obtain ⟨t, -, ht⟩ := Option.bind_eq_some_iff.mp hd
  obtain ⟨entry, hentry, rfl⟩ := Option.map_eq_some_iff.mp hfind
  rcases h.plain ht with hempty | ⟨l, b, hb, hsymbol⟩
  · rw [hempty] at hentry
    cases hentry
  have hbound := (h.graph.own ht).1
  obtain ⟨d', hd', -, -, -, hscope⟩ := (h.laid hb).made (hsymbol ▸ hbound)
  cases ht.symm.trans hd'
  rw [hscope] at hentry
  have hmem := ScopeBuilder.mem_entries_of_freeze (Scope.mem_of_find? hentry)
  simp only [ScopeBuilder.entries, namesOf, Scope.tables, List.flatten_nil, List.append_nil,
    List.mem_map] at hmem
  obtain ⟨x, hx, rfl⟩ := hmem
  obtain ⟨child, hchild, hsame, -⟩ := (h.laid hb).nested x hx
  have hnested : NestedIn c.builders x.2 ⟨l⟩ := by
    simp only [NestedIn, nestedOf, hb, Option.map_some, Option.getD_some]
    exact List.mem_map_of_mem hx
  rw [TypeGraph.isBound, Option.isSome_iff_ne_none]
  intro hnone
  obtain ⟨r, hr, hw⟩ := (h.open_iff hchild).mp (hsame ▸ hnone)
  -- Whatever is nested within an outermost builder is so through the builder around it.
  rcases Relation.ReflTransGen.cases_head hw with rfl | ⟨j, hj, hw⟩
  · exact (h.outermost _ hr).2 _ hnested
  · rw [h.forest.parent hj hnested] at hw
    have hopen := (h.open_iff hb).mpr ⟨r, hr, hw⟩
    rw [hsymbol, hbound] at hopen
    cases hopen

theorem Coherent.builderOf?_eq (h : c.Coherent V) (hb : c.builders[i.index]? = some b) :
    c.builderOf? b.symbol = some i := by
  obtain ⟨j, hj⟩ : ∃ j, c.builderOf? b.symbol = some j := by
    rw [builderOf?]
    cases hfind : c.builders.findIdx? fun x => x.symbol = b.symbol with
    | some j => exact ⟨⟨j⟩, rfl⟩
    | none =>
      have hall := Array.findIdx?_eq_none_iff.mp hfind b (Array.mem_of_getElem? hb)
      simp at hall
  obtain ⟨b', hb', hsymbol⟩ := Build.getElem?_of_builderOf? hj
  rw [hj, show j = i from congrArg BuilderId.mk (h.distinct hb' hb hsymbol)]

/-- A module whose declared types are open and stand at their paths. -/
structure Extensible (V : List SymbolId) (roots : List BuilderId) (declared : List DeclaredType)
    (ps : List Path) (c : Context) : Prop where
  resolvable : c.Resolvable V roots
  heads : c.Heads declared roots
  charts : c.Charts roots ps
  named : ∀ d ∈ declared, c.graph.nameOf d.entry.symbol = d.entry.name
  find : ∀ d ∈ declared, c.find? d.entry.name = some (.type d.entry)
  found : ∀ {name entry}, c.find? name = some (.type entry) →
    c.graph.isBound entry.symbol ∨ ∃ d ∈ declared, d.entry = entry ∧ entry.name = name

namespace Extensible

theorem move {ps' : List Path} (h : c.Extensible V roots declared ps) (hr : Resolves V c c')
    (hc' : c'.Resolvable V roots) (hcharts : c'.Charts roots ps') :
    c'.Extensible V roots declared ps' where
  resolvable := hc'
  heads := h.heads.resolves hr
  charts := hcharts
  named d hd := by
    obtain ⟨r, hmem, b, hb, hsymbol⟩ := h.heads.of_declared hd
    rw [TypeGraph.nameOf_eq_of_prefix hr.names (hsymbol ▸ (h.resolvable.builder hb).2.2.2), h.named d hd]
  find d hd := hr.find? _ ▸ h.find d hd
  found hfind := (h.found (hr.find? _ ▸ hfind)).imp_left hr.graph.isBound

theorem resolveType (h : c.Extensible V roots declared ps) {e : Expr}
    (hrun : Build.resolveType none e c = .ok s c') :
    c'.Extensible V roots declared ps ∧ Resolves V c c' ∧ c'.Known V s ∧
      ∀ {p i}, c'.Stands roots p i ↔ c.Stands roots p i := by
  obtain ⟨hresolved, hknown⟩ := (Build.resolveType_ends e none h.resolvable).of_eq hrun
  have hshelter := ((Build.sheltered_family c.builders.size c).resolveType e none).at_end
    ⟨Nat.le_refl _, fun _ _ => rfl⟩ hrun
  have hiff {p : Path} {i : BuilderId} : c'.Stands roots p i ↔ c.Stands roots p i :=
    Stands.sheltered_iff h.resolvable.toStanding hresolved.resolves hshelter
  exact ⟨h.move hresolved.resolves hresolved.resolvable (h.charts.congr hiff), hresolved.resolves, hknown,
    hiff⟩

end Extensible

/-- What a type expression means: the declared type at the path that it spells, or a finished one. -/
def Means (roots : List BuilderId) (ps : List Path) (c : Context) (e : Expr) (s : SymbolId) : Prop :=
  match Path.of? ps e with
  | some p => ∃ i b, c.Stands roots p i ∧ c.builders[i.index]? = some b ∧ b.symbol = s
  | none => c.graph.isBound s

namespace Extensible

variable {name : String}

variable (h : c.Extensible V roots declared ps)
include h

theorem error_bound : c.graph.isBound Prelude.error :=
  h.resolvable.graph.error_bound

theorem find?_of_mem (hmem : [name] ∈ ps) :
    ∃ i b entry, c.Stands roots [name] i ∧ c.builders[i.index]? = some b ∧
      c.find? name = some (.type entry) ∧ b.symbol = entry.symbol := by
  obtain ⟨i, hi⟩ := h.charts.mem_iff.mp hmem
  obtain ⟨d, hd, b, hb, hsymbol, -, hname⟩ := h.heads.of_stands hi
  rw [h.named d hd] at hname
  exact ⟨i, b, d.entry, hi, hb, hname ▸ h.find d hd, hsymbol⟩

theorem bound_of_notMem {entry : TypeName}
    (hfind : c.find? name = some (.type entry)) (hmem : [name] ∉ ps) : c.graph.isBound entry.symbol := by
  refine (h.found hfind).resolve_right ?_
  rintro ⟨d, hd, rfl, rfl⟩
  obtain ⟨r, hr, b, hb, hsymbol⟩ := h.heads.of_declared hd
  have hstands := Stands.root hr hb
  rw [hsymbol, h.named d hd] at hstands
  exact hmem (h.charts.mem_iff.mpr ⟨r, hstands⟩)

/-- The types nested in a declared one are at the paths that lead on from its own. -/
theorem findNested?_of_stands (hp : c.Stands roots p i)
    (hb : c.builders[i.index]? = some b) (name : String) :
    match c.findNested? b.symbol name with
    | some s => p ++ [name] ∈ ps ∧
        ∃ j b', c.Stands roots (p ++ [name]) j ∧ c.builders[j.index]? = some b' ∧ b'.symbol = s
    | none => p ++ [name] ∉ ps := by
  have hopen := hp.unbound h.resolvable.toStanding hb
  have hlaid := h.resolvable.laid hb
  have hnested : c.findNested? b.symbol name =
      (lookup? name (c.namesOf b.nested).live).map TypeName.symbol := by
    simp only [findNested?, TypeGraph.typeOf?, hopen, Option.bind_none, h.resolvable.builderOf?_eq hb,
      Option.bind_some, hb, TypeBuilder.findType?, hlaid.types hopen, ScopeBuilder.find?]
    simp [namesOf, Scope.find?]
  rw [hnested]
  cases hfind : lookup? name (c.namesOf b.nested).live with
  | none => exact (h.charts.lookup?_eq_none_iff hp hb name).mp hfind
  | some entry =>
    obtain ⟨x, hx, rfl⟩ := List.mem_map.mp (List.mem_of_find?_eq_some hfind)
    have hname := List.find?_some hfind
    rw [decide_eq_true_eq] at hname
    obtain ⟨b', hb', hsymbol, -⟩ := hlaid.nested x hx
    have hstands := (h.charts.stands_snoc hp hb).mpr ⟨x, hx, hname, rfl⟩
    exact ⟨h.charts.mem_iff.mpr ⟨_, hstands⟩, x.2, b', hstands, hb', hsymbol⟩

end Extensible

end Context

namespace Build

open Context

variable {note : Mark} {members : List (Tree.Member Mark)} {bindings : List Expr}

theorem eq_of_reject {span : Span} {fault : Fault} (h : reject span fault c = .ok s c') :
    s = Prelude.error := by
  cases h
  rfl

theorem isBound_of_newAnonymous {kind : TypeKind} (h : newAnonymous kind c = .ok s c') :
    c'.graph.isBound s := by
  obtain ⟨rfl, rfl⟩ := EStateM.Result.ok.inj h
  have hfresh : (c.graph.newSymbol "").2.isUnbound (c.graph.newSymbol "").1 :=
    TypeGraph.isUnbound_iff.mpr ⟨by simp [TypeGraph.HasSymbol, TypeGraph.newSymbol], by
      rw [TypeGraph.bound?_newSymbol]
      simp [TypeGraph.bound?, TypeGraph.newSymbol]⟩
  have hbound := TypeGraph.bound?_newType_of_isUnbound
    (d := { symbol := (c.graph.newSymbol "").1, kind := kind }) hfresh (c.graph.newSymbol "").1
  rw [if_pos rfl] at hbound
  exact TypeGraph.isBound_iff.mpr ⟨_, hbound⟩

theorem index_of_literal {scope : Option BuilderId}
    (h : resolveType scope (.typeLiteral note members) c = .ok s c') :
    s.index = c.graph.symbols.size := by
  rw [resolveType, resolveTypeBy] at h
  obtain ⟨symbol, c₁, hnew, h⟩ := exists_of_bind_ok h
  obtain ⟨_, _, -, h⟩ := exists_of_bind_ok h
  obtain ⟨_, _, -, h⟩ := exists_of_bind_ok h
  obtain ⟨_, _, -, h⟩ := exists_of_bind_ok h
  obtain ⟨_, _, -, h⟩ := exists_of_bind_ok h
  obtain ⟨_, _, -, h⟩ := exists_of_bind_ok h
  rw [← (EStateM.Result.ok.inj h).1, ← (EStateM.Result.ok.inj hnew).1]
  rfl

theorem isBound_of_literal (h : c.Extensible V roots declared ps)
    (hrun : resolveType none (.typeLiteral note members) c = .ok s c') :
    c'.graph.isBound s := by
  obtain ⟨hc', hresolves, ⟨-, hbound | ⟨l, b', hb', rfl⟩, -⟩, hiff⟩ := h.resolveType hrun
  · exact hbound
  by_contra hnot
  rw [Bool.not_eq_true, TypeGraph.isBound_eq_false_iff] at hnot
  -- A builder that is still open was there before, and the symbol of the literal was not.
  obtain ⟨r, hr, hw⟩ := (hc'.resolvable.open_iff hb').mp hnot
  have hroot := Array.getElem?_eq_getElem (hc'.resolvable.outermost r hr).1
  obtain ⟨p, hs⟩ := Stands.of_within hr hroot hw
  obtain ⟨b, hb⟩ := (hiff.mp hs).builder h.resolvable.toCoherent
  obtain ⟨_, hb₁, hsymbol, -⟩ := hresolves.builders hb
  cases hb₁.symm.trans hb'
  have hlt : b'.symbol.index < c.graph.symbols.size := hsymbol ▸ (h.resolvable.builder hb).2.2.2
  exact absurd (index_of_literal hrun) (Nat.ne_of_lt hlt)

theorem means_of_resolveType : (e : Expr) → ∀ {c c' : Context} {s : SymbolId},
    c.Extensible V roots declared ps → resolveType none e c = .ok s c' → c'.Means roots ps e s
  | .ident note name, c, c', s, h, hrun => by
    rw [resolveType, resolveTypeBy, get_bind] at hrun
    simp only [findEnclosed?, around, List.findSome?_nil] at hrun
    unfold Means Path.of?
    split
    next p hp =>
      split at hp
      next hmem =>
        obtain ⟨i, b, entry, hi, hb, hfind, hsymbol⟩ := h.find?_of_mem hmem
        rw [hfind] at hrun
        cases hrun
        cases hp
        exact ⟨i, b, hi, hb, hsymbol⟩
      next => cases hp
    next hp =>
      have hmem : [name] ∉ ps := by
        intro hmem
        rw [if_pos hmem] at hp
        cases hp
      cases hfind : c.find? name with
      | none =>
        rw [hfind] at hrun
        cases hrun
        exact h.error_bound
      | some d =>
        rw [hfind] at hrun
        cases d with
        | type entry =>
          cases hrun
          exact h.bound_of_notMem hfind hmem
        | value m =>
          cases hrun
          exact h.error_bound
  | .selection note target member, c, c', s, h, hrun => by
    rw [resolveType, resolveTypeBy] at hrun
    obtain ⟨t, c₁, ht, hrun⟩ := exists_of_bind_ok hrun
    have hmeans := means_of_resolveType target h ht
    have h₁ := (h.resolveType ht).1
    rw [get_bind] at hrun
    cases hp : Path.of? ps target with
    | some p =>
      rw [Means, hp] at hmeans
      obtain ⟨i, b, hi, hb, rfl⟩ := hmeans
      have hopen := hi.unbound h₁.resolvable.toStanding hb
      have herror : c₁.graph.isError b.symbol = false := by
        simp [TypeGraph.isError, TypeGraph.typeOf?, hopen]
      have hnested := h₁.findNested?_of_stands hi hb member
      rw [if_neg (by simp [herror])] at hrun
      simp only [Means, Path.of?, hp, Option.bind_some]
      cases hfind : c₁.findNested? b.symbol member with
      | none =>
        rw [hfind] at hnested hrun
        cases hrun
        rw [if_neg hnested]
        exact h₁.error_bound
      | some s =>
        rw [hfind] at hnested hrun
        cases hrun
        rw [if_pos hnested.1]
        exact hnested.2
    | none =>
      rw [Means, hp] at hmeans
      simp only [Means, Path.of?, hp, Option.bind_none]
      split at hrun
      next =>
        cases hrun
        exact hmeans
      next =>
        cases hfind : c₁.findNested? t member with
        | none =>
          rw [hfind] at hrun
          cases hrun
          exact h₁.error_bound
        | some s =>
          obtain ⟨bound, hbound⟩ := TypeGraph.isBound_iff.mp hmeans
          have hdef : c₁.graph.def? bound = some _ :=
            Array.getElem?_eq_getElem (h₁.resolvable.graph.types hbound)
          have hd : c₁.graph.typeOf? t = some _ := Option.bind_eq_some_iff.mpr ⟨bound, hbound, hdef⟩
          rw [hfind] at hrun
          rw [findNested?, hd] at hfind
          cases hrun
          exact h₁.resolvable.isBound_of_findType? hd hfind
  | .arrayType note element size, c, c', s, h, hrun => by
    have hc' := (h.resolveType hrun).1
    rw [resolveType, resolveTypeBy] at hrun
    obtain ⟨t, c₁, -, hrun⟩ := exists_of_bind_ok hrun
    cases size with
    | none => exact isBound_of_newAnonymous hrun
    | some size =>
      obtain ⟨constant, c₂, -, hrun⟩ := exists_of_bind_ok hrun
      split at hrun
      · split at hrun
        · exact isBound_of_newAnonymous hrun
        · exact eq_of_reject hrun ▸ hc'.error_bound
      · exact eq_of_reject hrun ▸ hc'.error_bound
  | .referenceType note referent, c, c', s, h, hrun => by
    rw [resolveType, resolveTypeBy] at hrun
    obtain ⟨t, c₁, -, hrun⟩ := exists_of_bind_ok hrun
    exact isBound_of_newAnonymous hrun
  | .typeLiteral note members, c, c', s, h, hrun => isBound_of_literal h hrun
  | .literal .., c, c', s, h, hrun | .call .., c, c', s, h, hrun | .namedArgument .., c, c', s, h, hrun
  | .sequence .., c, c', s, h, hrun | .definition .., c, c', s, h, hrun
  | .extension .., c, c', s, h, hrun => by
    simp only [resolveType, resolveTypeBy] at hrun
    cases hrun
    exact h.error_bound

/-- An extension adds what its members nest in the declared type that it names, if there is one. -/
theorem extend_charts (h : c.Extensible V roots declared ps) (x : Extension) :
    Ends (extend x) c fun _ c' => c'.Extensible V roots declared (Path.extend ps x) := by
  apply Ends.bind
  apply (resolveType_ends x.target none h.resolvable).keep.mono
  rintro s c₁ ⟨hrun, -⟩
  have h₁ := (h.resolveType hrun).1
  have hmeans := means_of_resolveType x.target h hrun
  refine Ends.bind (Ends.get ?_)
  cases hp : Path.of? ps x.target with
  | none =>
    rw [Means, hp] at hmeans
    simp only [Path.extend, hp]
    split
    next => exact Ends.pure h₁
    next =>
      split
      next hbound =>
        rw [hbound] at hmeans
        cases hmeans
      next =>
        apply Ends.report
        have hr := resolves_reported (V := V) (c := c₁)
          ⟨x.target.span, .cannotExtend (c₁.graph.symbolText s)⟩
        exact h₁.move hr
          (h₁.resolvable.of_standing hr (declares_reported h₁.resolvable.toStanding _).standing)
          (h₁.charts.congr ⟨Stands.of_eq rfl rfl, Stands.of_eq rfl rfl⟩)
  | some p =>
    rw [Means, hp] at hmeans
    obtain ⟨i, b, hi, hb, rfl⟩ := hmeans
    have hopen := hi.unbound h₁.resolvable.toStanding hb
    have herror : c₁.graph.isError b.symbol = false := by
      simp [TypeGraph.isError, TypeGraph.typeOf?, hopen]
    simp only [Path.extend, hp, herror, h₁.resolvable.builderOf?_eq hb,
      TypeGraph.isBound_eq_false_iff.mpr hopen]
    apply Ends.bind
    apply ((declareNested_charts i x.members h₁.resolvable.toStanding h₁.charts hi).and
      (declareNested_ends i x.members h₁.resolvable.toStanding hb hopen)).mono
    rintro plans c₂ ⟨⟨hdeclares, -, hcharts⟩, -, hplanned⟩
    have h₂ := h₁.move hdeclares.resolves (hdeclares.resolved h₁.resolvable).resolvable hcharts
    apply (fill_ends x.members plans i (some b.symbol) h₂.resolvable hplanned).keep.mono
    rintro _ c₃ ⟨hfill, hfilled⟩
    have hfamily := sheltered_family c₂.builders.size c₂
    have hshelter := (hfamily.bind (hfamily.populate x.members i (some b.symbol)) fun _ =>
      hfamily.populateNested x.members plans).at_end ⟨Nat.le_refl _, fun _ _ => rfl⟩ hfill
    exact h₂.move hfilled.resolved.resolves hfilled.resolved.resolvable
      (h₂.charts.congr (Stands.sheltered_iff h₂.resolvable.toStanding hfilled.resolved.resolves hshelter))

theorem extendTypes_charts (h : c.Extensible V roots declared ps) :
    Ends extendTypes c fun _ c' =>
      c'.Extensible V roots declared (c.extensions.foldl Path.extend ps) := by
  refine Ends.bind (Ends.get (Ends.bind (Ends.modify ?_)))
  refine Ends.forM_done (I := fun done c' => c'.Extensible V roots declared (done.foldl Path.extend ps))
    c.extensions ?_ ?_
  · intro done x _ c' h'
    rw [List.foldl_append]
    exact extend_charts h' x
  · exact
      { resolvable := h.resolvable.extended
        heads := h.heads
        charts := h.charts.congr ⟨Stands.of_eq rfl rfl, Stands.of_eq rfl rfl⟩
        named := h.named
        find := h.find
        found := h.found }

theorem declareTypes_extensible (h : c.Declared bindings)
    (hc : c.Accepts bindings) : Ends declareTypes c fun outermost c' =>
      c'.Extensible c.valueSymbols outermost c.declared
        (Path.ofTypes ((Tree.winningTypes bindings).filterMap Tree.Node.declaredType?)) ∧
      c'.extensions = bindings.filterMap Tree.Node.extension? := by
  have hnames : (c.declared.map fun d => d.entry.name).Nodup := by
    have hall := hc.names
    rw [declarations, List.map_append, List.map_map] at hall
    exact (List.nodup_append.mp hall).1
  apply ((declareTypes_ends h).and (declareTypes_charts h hnames)).mono
  rintro outermost c' ⟨hfilled, hheads, hcharts⟩
  rw [hc.types] at hcharts
  have hr := hfilled.resolved.resolves
  refine ⟨⟨hfilled.resolved.resolvable, hheads, hcharts, ?_, ?_, ?_⟩,
    (hr.unchanged Context.extensions fun _ => rfl).trans hc.extensions⟩
  · intro d hd
    have hfree := (TypeGraph.isUnbound_iff.mp (h.free _ (List.mem_map_of_mem hd)).unbound).1
    rw [TypeGraph.nameOf_eq_of_prefix hr.names hfree, h.named d hd]
  · intro d hd
    have hmem : Declaration.type d.entry ∈ c.declarations :=
      List.mem_append_left _ (List.mem_map_of_mem hd)
    have hlookup := lookup?_of_mem hc.names hmem
    rw [hr.find?, hc.find]
    exact congrArg (Option.or · _) hlookup
  · intro name entry hfind
    rw [hr.find?, hc.find] at hfind
    cases hlookup : lookup? name c.declarations with
    | some d =>
      rw [hlookup] at hfind
      cases hfind
      have hname := List.find?_some hlookup
      rw [decide_eq_true_eq] at hname
      rcases List.mem_append.mp (List.mem_of_find?_eq_some hlookup) with hmem | hmem
      · obtain ⟨d, hd, heq⟩ := List.mem_map.mp hmem
        cases heq
        exact .inr ⟨d, hd, rfl, hname⟩
      · obtain ⟨v, -, heq⟩ := List.mem_map.mp hmem
        cases heq
    | none =>
      rw [hlookup, Option.none_or] at hfind
      have hlt := Prelude.symbol_lt_of_mem (Scope.mem_of_find? hfind)
      exact .inl (hfilled.resolved.resolvable.graph.prelude.isBound (Prelude.bound_of_lt hlt).2.1)

/-- Once the types of a module are made, each stands at its path and is finished. -/
theorem makeTypes_charts (h : c.Declared bindings) (hc : c.Accepts bindings) :
    Ends makeTypes c fun _ c' => ∃ roots, c'.Standing c.valueSymbols [] ∧ c'.Heads c.declared roots ∧
      (∀ d ∈ c.declared, c'.graph.nameOf d.entry.symbol = d.entry.name) ∧
      c'.Charts roots (Path.declared bindings) := by
  rw [makeTypes_eq]
  apply Ends.bind
  apply (declareTypes_extensible h hc).mono
  rintro roots c₁ ⟨h₁, hextensions⟩
  apply Ends.bind
  apply (extendTypes_charts h₁).mono
  intro _ c₂ h₂
  rw [hextensions] at h₂
  apply (finishAll_ends h₂.resolvable).keep.mono
  rintro _ c₃ ⟨hrun, hfinished⟩
  have hfamily := sheltered_family c₂.builders.size c₂
  have hshelter := (hfamily.forM roots hfamily.finishTypes).at_end ⟨Nat.le_refl _, fun _ _ => rfl⟩ hrun
  have hr := hfinished.resolved.resolves
  refine ⟨roots, hfinished.resolved.resolvable.toStanding, h₂.heads.resolves hr, ?_,
    h₂.charts.congr (Stands.sheltered_iff h₂.resolvable.toStanding hr hshelter)⟩
  intro d hd
  obtain ⟨r, -, b, hb, hsymbol⟩ := h₂.heads.of_declared hd
  have hknown : c₂.graph.HasSymbol d.entry.symbol := hsymbol ▸ (h₂.resolvable.builder hb).2.2.2
  rw [TypeGraph.nameOf_eq_of_prefix hr.names hknown, h₂.named d hd]

end Build
end Binder
