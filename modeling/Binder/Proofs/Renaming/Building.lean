import Binder.Proofs.Module.Unresolved
import Binder.Proofs.Renaming.Values

/-! Whole builds under other numbers. A build of bindings whose nodes are numbered otherwise, in which
builders are finished in some other way that only numbers types anew, tells the same of the module. -/
namespace Binder

open Binder.Tree (Expr Mark NodeId)

/-- Other numbers for nodes alone. -/
def Renumbering.renode (ν : NodeId ↪ NodeId) : Renumbering := ⟨ν, .refl _⟩

namespace Context

variable {ρ : Renumbering} {c c' : Context}

/-- There are no fallbacks in the prelude, and nothing else of it has nodes. -/
theorem renamed_initial (ν : NodeId ↪ NodeId) (name : String) :
    (initial name).Renamed (.renode ν) (initial name) := by
  refine ⟨.refl _, .initial Prelude.graph Prelude.scope, ?_, by simp [Renumbering.context, initial]⟩
  refine
    { graph := ⟨?_, fun t => ?_, rfl, fun _ _ => rfl⟩, groups := rfl, scope := rfl, typed := rfl
      waiting := rfl, blocked := rfl, calls := fun _ => rfl, nextCall := fun _ => rfl
      diagnostics := rfl, journal := rfl }
  · have hentry : ((Renumbering.renode ν).retype (.refl _)).entry = id := by
      funext entry
      obtain ⟨name, _ | type⟩ := entry <;> rfl
    rw [hentry, Array.map_id]
    rfl
  · show Prelude.graph.def? t = (Prelude.graph.def? t).map _
    cases hd : Prelude.graph.def? t with
    | none => rfl
    | some d =>
      rw [Option.map_some, Renumbering.typeDef_eq_self]
      intro s hs p hp
      rw [Prelude.fallback_eq_none hd hs hp, Option.map_none]

/-- The contexts tell the same of a module, the type of which has the same number in both. -/
def Mirrored (ρ : Renumbering) (c c' : Context) : Prop :=
  ∃ τ s', c.inference.Renamed (ρ.retype τ) s' ∧ (∀ t, c.module = some t → τ t = t) ∧
    c' = { ρ.context c with inference := s' }

theorem Mirrored.report (h : Mirrored ρ c c') : Report.ofContext c' = Report.ofContext c := by
  obtain ⟨τ, s', hs, hmodule, rfl⟩ := h
  have hg := hs.graph
  have hname : c.module.elim (some "") s'.graph.typeText =
      c.module.elim (some "") c.graph.typeText := by
    cases ht : c.module with
    | none => rfl
    | some t =>
      have htext : s'.graph.typeText (τ t) = c.graph.typeText t := hg.typeText t
      rw [hmodule t ht] at htext
      exact htext
  have htypes : ((c.declared.map ρ.declaredType).flatMap fun d =>
        Report.typeEntries s'.graph s'.graph.types.size d.entry.symbol) =
      c.declared.flatMap fun d => Report.typeEntries c.graph c.graph.types.size d.entry.symbol := by
    rw [List.flatMap_map, hg.size]
    exact List.flatMap_congr fun d _ => hg.typeEntries _ d.entry.symbol
  have hvalues : ((c.values.map ρ.moduleValue).map fun v =>
        (⟨v.member.name, s'.graph.symbolText v.member.type, v.member.isMutable,
          (c.constant? v.member.name).map Constant.text⟩ : Report.ValueEntry)) =
      c.values.map fun v => ⟨v.member.name, c.graph.symbolText v.member.type, v.member.isMutable,
        (c.constant? v.member.name).map Constant.text⟩ := by
    simp only [hg.symbolText, List.map_map]
    rfl
  show (⟨_, _, _, _⟩ : Report) = ⟨_, _, _, _⟩
  exact congr (congr (congr (congrArg Report.mk hname) htypes) hvalues) rfl

end Context

namespace Build

open Context

variable {ρ : Renumbering} {V : List SymbolId} {finish : BuilderId → Build Unit} {root root' : Expr}
  {ν : NodeId ↪ NodeId}

/-! Entering and declaring -/

theorem enterScope_renamed (d : Declaration) :
    Mirrors (Renamed ρ) (Renamed ρ) id (enterScope d) (enterScope d) := by
  refine .of_modifyGet ?_
  rintro c _ ⟨τ, s', hs, rfl⟩
  exact ⟨rfl, τ, s', hs, rfl⟩

theorem enterBinding_renamed (e : Expr) :
    Mirrors (Renamed ρ) (Renamed ρ) id (enterBinding e) (enterBinding (ρ.expr e)) := by
  cases e with
  | definition note mutable name ascription value =>
    have hmap : ρ.expr (.definition note mutable name ascription value) =
        .definition (ρ.mark note) mutable name (ascription.map ρ.expr) (value.map ρ.expr) := by
      simp only [Renumbering.expr, Tree.Node.map, Tree.mapOption_eq]
      rfl
    have hmembers := Tree.Node.declaredMembers?_map (f := ρ.mark)
      (.definition note mutable name ascription value)
    have hsame : Tree.Node.map ρ.mark (.definition note mutable name ascription value) = _ := hmap
    rw [hsame] at hmembers
    rw [hmap]
    unfold enterBinding
    simp only [hmembers]
    cases Tree.Node.declaredMembers? (.definition note mutable name ascription value) with
    | none =>
      refine .of_modify ?_
      rintro c _ ⟨τ, s', hs, rfl⟩
      exact ⟨τ, s', hs, by simp [Renumbering.context, Renumbering.definition]⟩
    | some members =>
      refine (newSymbol_renamed name).bind fun symbol => (enterScope_renamed _).bind fun inserted => ?_
      cases inserted with
      | false => exact report_renamed _ _
      | true =>
        refine .of_modify ?_
        rintro c _ ⟨τ, s', hs, rfl⟩
        refine ⟨τ, s', hs, ?_⟩
        simp only [Renumbering.context, List.map_append, List.map_singleton]
        rfl
  | extension note target members =>
    have hmap : ρ.expr (.extension note target members) =
        .extension (ρ.mark note) (ρ.expr target) (members.map ρ.treeMember) := by
      simp only [Renumbering.expr, Tree.Node.map, Tree.mapMembers_eq]
      rfl
    rw [hmap]
    refine .of_modify ?_
    rintro c _ ⟨τ, s', hs, rfl⟩
    exact ⟨τ, s', hs, by simp [Renumbering.context, Renumbering.extension]⟩
  | literal | ident | selection | call | namedArgument | sequence | typeLiteral | arrayType
  | referenceType =>
    refine .of_modify ?_
    rintro c _ ⟨τ, s', hs, rfl⟩
    exact ⟨τ, s', hs, by simp [Renumbering.context, Renumbering.expr, Tree.Node.map]⟩

theorem enter_renamed (hroot : root'.bindings = root.bindings.map ρ.expr) :
    Mirrors (Renamed ρ) (Renamed ρ) id (enter root) (enter root') := by
  refine .get_bind fun c c' hc => ?_
  have hstage : c'.stage = c.stage := by
    obtain ⟨τ, s', hs, rfl⟩ := hc
    rfl
  rw [hstage]
  cases c.stage with
  | unbound =>
    refine (Mirrors.forM hroot fun e _ => enterBinding_renamed e).bind fun _ => .of_modify ?_
    rintro c _ ⟨τ, s', hs, rfl⟩
    exact ⟨τ, s', hs, rfl⟩
  | entered | built => exact fun _ _ _ _ _ hp => nomatch hp

theorem declareValue_renamed (d : Definition) :
    Mirrors (Renamed ρ) (Renamed ρ) id (declareValue d) (declareValue (ρ.definition d)) := by
  refine (newSymbol_renamed "").bind fun symbol => (enterScope_renamed _).bind fun inserted => ?_
  cases inserted with
  | false => exact report_renamed _ _
  | true =>
    refine .of_modify ?_
    rintro c _ ⟨τ, s', hs, rfl⟩
    refine ⟨τ, s', hs, ?_⟩
    simp only [Renumbering.context, List.map_append, List.map_singleton]
    rfl

theorem declareValues_renamed : Mirrors (Renamed ρ) (Renamed ρ) id declareValues declareValues := by
  refine .get_bind fun c c' hc => ?_
  have hdefinitions : c'.definitions = c.definitions.map ρ.definition := by
    obtain ⟨τ, s', hs, rfl⟩ := hc
    rfl
  refine Mirrors.bind (S := Renamed ρ) (.of_modify ?_) fun _ => ?_
  · rintro c _ ⟨τ, s', hs, rfl⟩
    exact ⟨τ, s', hs, rfl⟩
  refine (Mirrors.forM hdefinitions fun d _ => declareValue_renamed d).bind fun _ => .of_modify ?_
  rintro c _ ⟨τ, s', hs, rfl⟩
  exact ⟨τ, { s' with scope := c.scope.freeze.1 }, { hs with scope := rfl }, rfl⟩

/-! The end of a build -/

theorem foldValue_renamed (v : ModuleValue) :
    Mirrors (Renamed ρ) (Renamed ρ) id (foldValue v) (foldValue (ρ.moduleValue v)) := by
  unfold foldValue
  have hvalue : (ρ.moduleValue v).definition.value = v.definition.value.map ρ.expr := rfl
  have hmember : (ρ.moduleValue v).member = v.member := rfl
  rw [hvalue, hmember]
  cases v.definition.value with
  | none => exact .pure id ()
  | some e =>
    simp only [Option.map_some]
    split
    · exact .pure id ()
    refine .get_bind fun c c' hc => ?_
    have htype : c'.inference.typeOf? (ρ.expr e).id = c.inference.typeOf? e.id := by
      obtain ⟨τ, s', hs, rfl⟩ := hc
      rw [ρ.id_expr]
      exact hs.typeOf? e.id
    obtain ⟨τ, hg⟩ := hc.graph
    rw [htype]
    cases c.inference.typeOf? e.id with
    | none => exact .pure id ()
    | some type =>
      simp only [hg.isError]
      split
      · exact .pure id ()
      refine (fold_renamed e).bind fun constant => ?_
      split
      · refine .of_modify ?_
        rintro c _ ⟨τ, s', hs, rfl⟩
        exact ⟨τ, s', hs, rfl⟩
      · exact .pure id ()

theorem checkInferred_renamed : Mirrors (Renamed ρ) (Renamed ρ) id checkInferred checkInferred := by
  refine .of_modify ?_
  rintro c _ ⟨τ, s', hs, rfl⟩
  have hfinish := Inference.renamed_finish hs
  refine ⟨τ, { Inference.finish s' with diagnostics := [] }, { hfinish with diagnostics := rfl }, ?_⟩
  have huninferred : ((c.values.map ρ.moduleValue).filter fun v =>
        !(Inference.finish s').graph.isBound v.member.type) =
      (c.values.filter fun v => !(Inference.finish c.inference).graph.isBound v.member.type).map
        ρ.moduleValue := by
    rw [List.filter_map]
    simp only [hfinish.graph.isBound]
    rfl
  simp only [Renumbering.context, huninferred, hfinish.diagnostics, List.map_map]
  rfl

theorem newModule_mirrors (d : TypeDef) :
    Mirrors (Renamed ρ) (Mirrored ρ) id
      (do
        let t ← withGraph fun g => g.newType d
        modify fun c => { c with module := some t }
        return t)
      (do
        let t ← withGraph fun g => g.newType (ρ.typeDef d)
        modify fun c => { c with module := some t }
        return t) := by
  rintro c _ ⟨τ, s', hs, rfl⟩ t c₁ hp
  cases hp
  refine ⟨_, ?_, τ, { s' with graph := (s'.graph.newType (ρ.typeDef d)).2 },
    { hs with graph := hs.graph.newType d }, ?_, rfl⟩
  · have hlast : (⟨c.inference.graph.types.size⟩ : TypeId) = ⟨s'.graph.types.size⟩ := by
      rw [hs.graph.size]
    show _ = EStateM.Result.ok (⟨c.inference.graph.types.size⟩ : TypeId) { ρ.context c with
      inference := { s' with graph := (s'.graph.newType (ρ.typeDef d)).2 }
      module := some ⟨c.inference.graph.types.size⟩ }
    rw [hlast]
    rfl
  · rintro _ ⟨⟩
    exact hs.graph.next _ (Nat.le_refl _)

theorem finishModule_mirrors : Mirrors (Renamed ρ) (Mirrored ρ) id finishModule finishModule := by
  refine .get_bind fun c c' hc => ?_
  obtain ⟨τ, s', hs, rfl⟩ := hc
  refine (newSymbol_renamed c.moduleName).bind fun symbol => ?_
  have hmembers : (c.values.map ρ.moduleValue).map ModuleValue.member =
      c.values.map ModuleValue.member := List.map_map ..
  have hentries : (c.declared.map ρ.declaredType).map DeclaredType.entry =
      c.declared.map DeclaredType.entry := List.map_map ..
  simp only [Renumbering.context, hmembers, hentries]
  exact newModule_mirrors { symbol := symbol, kind := .module, members := _, typeScope := _ }

theorem conclude_mirrors : Mirrors (Renamed ρ) (Mirrored ρ) id conclude conclude := by
  refine .get_bind fun c c' hc => ?_
  have hvalues : c'.values = c.values.map ρ.moduleValue := by
    obtain ⟨τ, s', hs, rfl⟩ := hc
    rfl
  refine (Mirrors.forM hvalues fun v _ => foldValue_renamed v).bind fun _ => ?_
  refine checkInferred_renamed.bind fun _ => finishModule_mirrors.bind fun t => ?_
  refine Mirrors.bind (S := Mirrored ρ) (.of_modify ?_) fun _ => .pure id t
  rintro c _ ⟨τ, s', hs, hmodule, rfl⟩
  exact ⟨τ, s', hs, hmodule, rfl⟩

/-! Builds -/

theorem calm_of_declared {c : Context} {bindings : List Expr} (h : c.Declared bindings)
    (hbuilders : c.builders = #[]) : c.Calm c.valueSymbols c.declaredSymbols := by
  have howners : c.owners c.declaredSymbols = c.declaredSymbols := by simp [owners, hbuilders]
  refine ⟨h.standing.quiet, fun s hs => (h.standing.graph.values s hs).2, h.standing.graph.types, ?_,
    fun s hs => ?_, howners.symm ▸ h.nodup, by simp [hbuilders]⟩
  · intro call gathering hcall
    rw [h.inference] at hcall
    cases hcall
  · have hfree := h.free s (howners ▸ hs)
    exact ⟨hfree.notMem, (TypeGraph.isUnbound_iff.mp hfree.unbound).1⟩

/-- A build of the same bindings under other numbers of nodes, with another way to finish builders,
tells the same of the module. -/
theorem buildBy_mirrored (name : String)
    (hroot : root'.bindings = root.bindings.map (Renumbering.renode ν).expr)
    (honce : ∀ n, Tree.count n (Tree.preorderOf root.bindings) ≤ 1)
    (hfinish : ∀ V, FinishesAlike (.renode ν) V [] finish) :
    ∃ t c c', build root (.initial name) = .ok t c ∧
      buildBy (.asking finish) root' (.initial name) = .ok t c' ∧ c.module = some t ∧
      Mirrored (.renode ν) c c' := by
  have henter := enter_eq name root
  have hdeclare := declareValues_entered name root.bindings
  obtain ⟨e', henter', he⟩ := enter_renamed hroot (renamed_initial ν name) henter
  obtain ⟨d', hdeclare', hd⟩ := declareValues_renamed he hdeclare
  have hdeclared := declared_named name root.bindings
  obtain ⟨_, i, hmake, hfurnished, hresolves⟩ := makeTypes_ends hdeclared
  obtain ⟨i', hmake', hi⟩ := makeTypes_mirrors (hfinish _)
    ⟨calm_of_declared hdeclared rfl, hd⟩ hmake
  have hsymbols : i.valueSymbols = (named name root.bindings).valueSymbols :=
    hresolves.unchanged Context.valueSymbols fun _ => rfl
  rw [← hsymbols] at hi
  obtain ⟨_, m, hvalues, -, happraised⟩ := inferValues_ends hfurnished honce
  have hmem : ∀ v ∈ i.values, v.member.type ∈ i.valueSymbols := fun v hv => List.mem_map_of_mem hv
  obtain ⟨m', hvalues', hm⟩ :=
    forM_inferValue_mirrors (hfinish _) i.values hmem (hfurnished.valuing honce) hi hvalues
  obtain ⟨s, hrun, -⟩ := happraised.run_restTasks
  have hrest := inferRest_of_run hrun
  obtain ⟨r', hrest', hr⟩ := inferRest_mirrors hm hrest
  have hend := conclude_eq m s
  obtain ⟨c', hend', hc⟩ := conclude_mirrors hr.renamed hend
  have hvaluesOf : i'.values = i.values.map (Renumbering.renode ν).moduleValue := by
    obtain ⟨-, τ, s', hs, rfl⟩ := hi
    rfl
  refine ⟨_, _, c', ?_, ?_, rfl, hc⟩
  · rw [build, buildBy_initial, bind_of_ok henter, bind_of_ok hdeclare, bind_of_ok hmake, get_bind,
      bind_of_ok hvalues, bind_of_ok hrest, hend]
  · rw [buildBy_initial, bind_of_ok henter', bind_of_ok hdeclare', bind_of_ok hmake', get_bind, hvaluesOf,
      bind_of_ok hvalues', bind_of_ok hrest', hend']
    rfl

/-- A build of the same bindings under other numbers of nodes tells the same of the module. -/
theorem build_renumbered (name : String)
    (hroot : root'.bindings = root.bindings.map (Renumbering.renode ν).expr)
    (honce : ∀ n, Tree.count n (Tree.preorderOf root.bindings) ≤ 1) :
    ∃ t c c', build root (.initial name) = .ok t c ∧ build root' (.initial name) = .ok t c' ∧
      Mirrored (.renode ν) c c' := by
  obtain ⟨t, c, c', hbuild, hbuild', -, hmirrored⟩ :=
    buildBy_mirrored name hroot honce fun _ k => finishTypes_mirrors k
  exact ⟨t, c, c', hbuild, hbuild', hmirrored⟩

end Build
end Binder
