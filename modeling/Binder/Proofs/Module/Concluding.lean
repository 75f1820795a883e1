import Binder.Proofs.Document.Lowering
import Binder.Proofs.Module.Inferring

/-! Concluding the inference of a module. After the values, the fallbacks of parameters and the bare
expressions are inferred; from then on nothing is due, and what is left over is reported. The last
passes fold constants, collect the reports and make the type of the module. -/
namespace Binder

open Binder.Tree (Expr Mark NodeId)
open Inference (Task)

/-- The values of a module that were left without a type. -/
def Build.uninferred (values : List ModuleValue) (g : TypeGraph) : List ModuleValue :=
  values.filter fun v => !g.isBound v.member.type

namespace Context

variable {V : List SymbolId} {c c' c'' m : Context} {s : Inference.State} {bindings : List Expr}
  {nodes rest : List Expr}

/-- The values of a module are inferred, and whatever stands in types is resolved. -/
structure Appraised (bindings : List Expr) (c : Context) : Prop
    extends c.Valuing c.valueSymbols (Tree.preorderOf c.expressions) where
  scope : c.inference.scope = c.rootScope
  covers : c.diagnostics = [] → ∀ e ∈ bindings, c.Provided e
  ascriptions : c.diagnostics = [] → ∀ v ∈ c.values,
    ∀ x ∈ Tree.preorderOption v.definition.ascription, ∀ d ∈ x.defaults, c.Pledges x d

/-- The tasks that are left once the values are inferred. -/
def restTasks (m : Context) : List Task :=
  m.fallbacks.flatMap fallbackTasks ++ m.expressions.map .infer

theorem owing_restTasks (m : Context) : Owing m.restTasks
    (m.fallbacks.flatMap (fun f => f.1.preorder) ++ Tree.preorderOf m.expressions) := by
  rw [restTasks, Tree.preorderOf_eq_flatMap, List.map_eq_flatMap]
  exact (Owing.flatMap Owing.fallback _).append (Owing.flatMap Owing.infer _)

theorem Appraised.inferring (h : m.Appraised bindings) : Inferring m.valueSymbols
    (m.fallbacks.flatMap (fun f => f.1.preorder) ++ Tree.preorderOf m.expressions ++ [])
    { m with fallbacks := [] } := by
  refine ⟨h.ready, fun n => ?_⟩
  have honce := h.once n
  have hnone : pledged { m with fallbacks := [] } n = 0 := rfl
  have hpledged : m.pledged n = Tree.count n (m.fallbacks.flatMap fun f => f.1.preorder) := by
    rw [pledged, Tree.preorderOf_eq_flatMap, List.flatMap_map]
  rw [hnone, List.append_nil, Tree.count_append]
  show m.inference.tally n + 0 + _ ≤ 1
  omega

theorem Appraised.valid_restTasks (h : m.Appraised bindings) :
    ∀ task ∈ m.restTasks, task.Valid m.valueSymbols (m.diagnostics = []) m.inference := by
  intro task htask
  rcases List.mem_append.mp htask with hfallback | hexpression
  · obtain ⟨f, hf, htask⟩ := List.mem_flatMap.mp hfallback
    have hknown := h.expecting f hf
    have hbound : m.graph.isBound f.2 := h.resolvable.toStanding.isBound hknown
    rcases List.mem_cons.mp htask with rfl | hpend
    · trivial
    · rw [List.mem_singleton.mp hpend]
      exact ⟨hbound, hknown.1, hknown.2.2⟩
  · obtain ⟨e, -, rfl⟩ := List.mem_map.mp hexpression
    trivial

theorem Appraised.ready_restTasks (h : m.Appraised bindings) :
    m.inference.Ready m.valueSymbols (m.diagnostics = []) m.restTasks :=
  h.inferring.begin h.valid_restTasks (owing_restTasks m)

/-- All that was to be inferred in a module. -/
def tasks (c : Context) : List Task :=
  c.values.flatMap ModuleValue.tasks ++ c.fallbacks.flatMap fallbackTasks ++
    c.expressions.map .infer

/-- The state at the end of the inference of a module whose values are inferred. -/
structure Concludes (m : Context) (s : Inference.State) : Prop where
  ready : s.Ready m.valueSymbols (m.diagnostics = []) []
  advances : m.inference.Advances s

theorem Appraised.run_restTasks (h : m.Appraised bindings) :
    ∃ s, m.inference.run m.restTasks = (s, .ok ()) ∧ m.Concludes s := by
  obtain ⟨s, hrun, hadvances, hdone⟩ := h.inferring.run h.valid_restTasks (owing_restTasks m)
  exact ⟨s, hrun, hdone.ready, hadvances⟩

def concluded (m : Context) (s : Inference.State) : Context :=
  { m with fallbacks := [], expressions := [], inference := s }

/-- The constant that an immutable value is recorded with: what its initialiser folds to, if that has a
type and the type is no error. -/
def recorded? (c : Context) (v : ModuleValue) : Option (String × Constant) :=
  v.definition.value.bind fun e =>
    if v.member.isMutable = false ∧ (c.inference.typeOf? e.id).any (fun type => !c.graph.isError type) ∧
        (Constant.eval e).1.isConst then
      some (v.member.name, (Constant.eval e).1)
    else none

/-- The faults that are found when the initialiser of a value is folded. -/
def faultsOf (c : Context) (v : ModuleValue) : List Diagnostic :=
  v.definition.value.toList.flatMap fun e =>
    if v.member.isMutable = false ∧
        (c.inference.typeOf? e.id).any (fun type => !c.graph.isError type) then (Constant.eval e).2
    else []

def folded (c : Context) (values : List ModuleValue) : Context :=
  { c with
    constants := c.constants ++ values.filterMap c.recorded?
    foldingFaults := c.foldingFaults ++ values.flatMap c.faultsOf }

/-- The type of a module, which is the last to be made. -/
def moduleType (m : Context) (g : TypeGraph) : TypeId × TypeGraph :=
  let (symbol, g) := g.newSymbol m.moduleName
  g.newType
    { symbol := symbol, kind := .module, members := m.values.map ModuleValue.member
      typeScope := .ofList (m.declared.map DeclaredType.entry) }

/-- What a module comes to once everything is inferred. -/
def ended (m : Context) (s : Inference.State) : Context :=
  let f := (m.concluded s).folded m.values
  let finished := Inference.finish s
  { f with
    stage := .built
    foldingFaults := []
    module := some (m.moduleType s.graph).1
    inference := { finished with diagnostics := [], graph := (m.moduleType s.graph).2 }
    diagnostics := m.diagnostics ++ finished.diagnostics ++ f.foldingFaults ++
      (Build.uninferred m.values s.graph).map
        fun v => ⟨v.definition.node.span, .cannotInfer v.member.name⟩ }

/-- The context at the end of a build. Nothing is reported only if everything was inferred. -/
structure Built (m : Context) (s : Inference.State) (c : Context) : Prop where
  stage : c.stage = .built
  values : c.values = m.values
  root : c.root = m.root
  constants : c.constants = m.constants ++ m.values.filterMap (m.concluded s).recorded?
  graph : ∃ name d, d.symbol = (s.graph.newSymbol name).1 ∧ d.kind = .module ∧
    d.signatures = [] ∧ c.graph = ((s.graph.newSymbol name).2.newType d).2
  inference : c.inference = { Inference.finish s with diagnostics := [], graph := c.graph }
  clean : c.diagnostics = [] → m.diagnostics = [] ∧ s.diagnostics = [] ∧ s.blocked = [] ∧
    ∀ v ∈ m.values, s.graph.isBound v.member.type

/-- The stages of a build that has come to its end: `i` before the values are inferred, `m` after
that and `s` once everything is. -/
structure Completed (bindings : List Expr) (i m : Context) (s : Inference.State) (c : Context) :
    Prop where
  once : ∀ n, Tree.count n (Tree.preorderOf bindings) ≤ 1
  furnished : i.Furnished bindings
  valued : i.values.forM Build.inferValue i = .ok () m
  infers : Infers i m
  appraised : m.Appraised bindings
  run : m.inference.run m.restTasks = (s, .ok ())
  concludes : m.Concludes s
  ended : c = m.ended s

/-- The stages of a build from scratch. -/
structure Outcome (name : String) (root : Expr) (i m : Context) (s : Inference.State) (c : Context) :
    Prop extends Completed root.bindings i m s c where
  furnishes : (do Build.enter root; Build.furnish) (initial name) = .ok () i

theorem Built.grows (h : Built m s c) : s.graph.Grows c.graph := by
  obtain ⟨name, t, -, -, -, hgraph⟩ := h.graph
  rw [hgraph]
  exact (TypeGraph.grows_newSymbol name).trans (TypeGraph.grows_newType t)

theorem Concludes.names (h : m.Concludes s) : m.graph.names <+: s.graph.names :=
  h.advances.names ▸ List.prefix_rfl

theorem Built.names (h : Built m s c) : s.graph.names <+: c.graph.names := by
  obtain ⟨name, d, -, -, -, hgraph⟩ := h.graph
  rw [hgraph, TypeGraph.names_newType, TypeGraph.names_newSymbol]
  exact List.prefix_append ..

theorem Built.ranked {D : Prop} (h : Built m s c) (hs : s.Ready V D []) : ∃ rank, c.graph.Ranked rank := by
  obtain ⟨name, t, -, hkind, -, hgraph⟩ := h.graph
  rw [hgraph]
  refine ⟨_, (hs.tidy.graph.ranked.newSymbol name).newType ?_⟩
  rw [hkind]
  rfl

theorem Infers.provided (h : Infers c c') {e : Expr} (he : c.Provided e) : c'.Provided e := by
  unfold Provided at he ⊢
  split at he
  · exact h.values ▸ he
  · exact fun x hx d hd => h.pledges (he x hx d hd)
  · exact fun x hx d hd => h.pledges (he x hx d hd)
  · exact h.expressions ▸ he

end Context

namespace Build

open Context

variable {V : List SymbolId} {c c' m : Context} {bindings : List Expr} {s : Inference.State}
  {rest : List Expr}

/-- Infers what is left once the values are inferred. -/
def inferRest : Build Unit := do
  let fallbacks := (← get).fallbacks
  modify fun c => { c with fallbacks := [] }
  fallbacks.forM inferFallback
  let expressions := (← get).expressions
  modify fun c => { c with expressions := [] }
  expressions.forM fun e => withInference fun s => Inference.infer s e

theorem inferRest_of_run (h : m.inference.run m.restTasks = (s, .ok ())) :
    inferRest m = .ok () (m.concluded s) := by
  rw [restTasks, Inference.State.run_append] at h
  cases hrun : m.inference.run (m.fallbacks.flatMap fallbackTasks) with
  | mk s₁ outcome =>
    rw [hrun] at h
    cases outcome with
    | error e => cases h
    | ok =>
      have hfallbacks : m.fallbacks.forM inferFallback { m with fallbacks := [] } =
          .ok () { m with fallbacks := [], inference := s₁ } := by
        rw [forM_runs inferFallback_eq]
        exact withInference_of_ok hrun
      have hexpressions : (m.expressions.forM fun e => withInference fun s => Inference.infer s e)
          { m with fallbacks := [], expressions := [], inference := s₁ } = .ok () (m.concluded s) := by
        have htasks : ∀ e : Expr, (withInference fun s => Inference.infer s e) =
          runs [.infer e] := fun _ => rfl
        rw [forM_runs htasks, ← List.map_eq_flatMap]
        exact withInference_of_ok h
      exact (bind_of_ok hfallbacks).trans hexpressions

theorem foldValue_ends (v : ModuleValue) (c : Context) :
    Ends (foldValue v) c fun _ c' => c' = c.folded [v] := by
  have hself : c.recorded? v = none → c.faultsOf v = [] → c = c.folded [v] := by
    intro hrecorded hfaults
    simp [folded, hrecorded, hfaults]
  unfold foldValue
  split
  next e he =>
    split
    next hmutable =>
      apply Ends.pure
      exact hself (by simp [recorded?, he, hmutable]) (by simp [faultsOf, he, hmutable])
    next hmutable =>
      refine Ends.bind (Ends.get ?_)
      split
      next type htype =>
        split
        next herror =>
          apply Ends.pure
          exact hself (by simp [recorded?, he, htype, herror]) (by simp [faultsOf, he, htype, herror])
        next herror =>
          have hfaults : c.faultsOf v = (Constant.eval e).2 := by
            simp [faultsOf, he, htype, hmutable, herror]
          refine Ends.bind (Ends.fold ?_)
          split
          next hconst =>
            have hrecorded : c.recorded? v = some (v.member.name, (Constant.eval e).1) := by
              simp [recorded?, he, htype, hmutable, herror, hconst]
            apply Ends.modify
            simp [folded, hrecorded, hfaults]
          next hconst =>
            have hrecorded : c.recorded? v = none := by simp [recorded?, he, hconst]
            apply Ends.pure
            simp [folded, hrecorded, hfaults]
      next hnone =>
        have htype : c.inference.typeOf? e.id = none := Option.eq_none_iff_forall_ne_some.mpr hnone
        apply Ends.pure
        exact hself (by simp [recorded?, he, htype]) (by simp [faultsOf, he, htype])
  next hnone =>
    have hvalue : v.definition.value = none := Option.eq_none_iff_forall_ne_some.mpr hnone
    apply Ends.pure
    exact hself (by simp [recorded?, hvalue]) (by simp [faultsOf, hvalue])

/-- Folding a value changes nothing that the folding of another one looks at. -/
theorem foldValues_ends (l : List ModuleValue) (c : Context) :
    Ends (l.forM foldValue) c fun _ c' => c' = c.folded l := by
  apply Ends.forM_done (I := fun done c' => c' = c.folded done) l ?_ (by simp [folded])
  rintro done v _ _ rfl
  apply (foldValue_ends v _).mono
  rintro _ _ rfl
  have hrecorded : (c.folded done).recorded? = c.recorded? := rfl
  have hfaults : (c.folded done).faultsOf = c.faultsOf := rfl
  rw [folded, hrecorded, hfaults]
  simp [folded]

theorem blocked_eq_nil_of_finish (h : (Inference.finish s).diagnostics = []) :
    s.diagnostics = [] ∧ s.blocked = [] := by
  obtain ⟨hreported, horigins⟩ := List.append_eq_nil_iff.mp h
  have hsorted : (s.blocked.map fun w => w.2.1).mergeSort Span.le = [] :=
    List.map_eq_nil_iff.mp horigins
  have hperm := List.mergeSort_perm (s.blocked.map fun w => w.2.1) Span.le
  rw [hsorted, List.nil_perm] at hperm
  exact ⟨hreported, List.map_eq_nil_iff.mp hperm⟩

/-- The passes of a build that follow inference. -/
def conclude : Build TypeId := do
  (← get).values.forM foldValue
  checkInferred
  let t ← finishModule
  modify fun c => { c with stage := .built }
  return t

theorem conclude_eq (m : Context) (s : Inference.State) :
    conclude (m.concluded s) = .ok (m.moduleType s.graph).1 (m.ended s) := by
  obtain ⟨_, _, hfold, rfl⟩ := foldValues_ends m.values (m.concluded s)
  exact bind_of_ok (p := m.values.forM foldValue) hfold

theorem built_ended (m : Context) (s : Inference.State) : Built m s (m.ended s) where
  stage := rfl
  values := rfl
  root := rfl
  constants := rfl
  graph := ⟨_, _, rfl, rfl, rfl, rfl⟩
  inference := rfl
  clean := by
    intro hclean
    obtain ⟨hleft, huninferred⟩ := List.append_eq_nil_iff.mp hclean
    obtain ⟨hleft, -⟩ := List.append_eq_nil_iff.mp hleft
    obtain ⟨hreported, hfinish⟩ := List.append_eq_nil_iff.mp hleft
    obtain ⟨hinferred, hblocked⟩ := blocked_eq_nil_of_finish hfinish
    refine ⟨hreported, hinferred, hblocked, ?_⟩
    intro v hv
    have hnone := List.filter_eq_nil_iff.mp (List.map_eq_nil_iff.mp huninferred) v hv
    rw [Bool.not_eq_true', Bool.not_eq_false] at hnone
    exact hnone

theorem inferValues_ends (h : c.Furnished bindings)
    (honce : ∀ n, Tree.count n (Tree.preorderOf bindings) ≤ 1) :
    Ends (c.values.forM inferValue) c fun _ m => Infers c m ∧ m.Appraised bindings := by
  have hV : ∀ v ∈ c.values, v.member.type ∈ c.valueSymbols := fun v hv => List.mem_map_of_mem hv
  apply (forM_inferValue_infers c.values hV (h.valuing honce)).mono
  rintro _ m ⟨hvaluing, hinfers, hpledges⟩
  have hsymbols : m.valueSymbols = c.valueSymbols := by
    rw [valueSymbols, hinfers.values, valueSymbols]
  have hscope : m.inference.scope = m.rootScope := by
    rw [hinfers.scope, rootScope, hinfers.root, h.inference]
    rfl
  refine ⟨hinfers, ?_, hscope, ?_, ?_⟩
  · rw [hsymbols, hinfers.expressions]
    exact hvaluing
  · intro hclean e he
    exact hinfers.provided (h.covers (hinfers.clean hclean) e he)
  · rw [hinfers.values]
    exact hpledges

/-- The passes of a build that follow entering. -/
def complete : Build TypeId := do
  furnish
  inferAll
  conclude

theorem complete_ends (h : c.Entered bindings)
    (honce : ∀ n, Tree.count n (Tree.preorderOf bindings) ≤ 1) :
    Ends complete c fun _ c' => ∃ i m s, furnish c = .ok () i ∧ Completed bindings i m s c' := by
  apply Ends.bind
  apply (furnish_ends h).keep.mono
  rintro _ i ⟨hfurnish, hfurnished⟩
  refine Ends.bind (Ends.bind (Ends.get (Ends.bind ?_)))
  apply (inferValues_ends hfurnished honce).keep.mono
  rintro _ m ⟨hvalued, hinfers, happraised⟩
  obtain ⟨s, hrun, hconcludes⟩ := happraised.run_restTasks
  refine ⟨(), _, inferRest_of_run hrun, _, _, conclude_eq m s, i, m, s, hfurnish, ?_⟩
  exact ⟨honce, hfurnished, hvalued, hinfers, happraised, hrun, hconcludes, rfl⟩

theorem build_of_entered (h : c.stage = .entered) (root : Expr) : build root c = complete c := by
  rw [build, buildBy, get_bind, h]
  simp only [complete, furnish, conclude, bind_assoc]

theorem build_of_unbound (h : c.stage = .unbound) (root : Expr) :
    build root c = (do enter root; complete) c := by
  rw [build, buildBy, get_bind, h]
  simp only [complete, furnish, conclude, bind_assoc]

theorem buildBy_initial {κ : Type} (r : Resolver κ) (name : String) (root : Expr) :
    buildBy r root (.initial name) = (do
      enter root
      declareValues
      makeTypesBy r
      (← get).values.forM (inferValueBy r)
      inferRest
      conclude) (.initial name) := by
  rw [buildBy, get_bind]
  simp only [initial, inferAllBy, inferRest, conclude, bind_assoc]

theorem build_of_built (h : c.stage = .built) (root : Expr) :
    build root c = .error .alreadyBuilt c := by
  rw [build, buildBy, get_bind, h]
  rfl

theorem build_ends (name : String) (root : Expr)
    (honce : ∀ n, Tree.count n (Tree.preorderOf root.bindings) ≤ 1) :
    Ends (build root) (.initial name) fun _ c => ∃ i m s, Outcome name root i m s c := by
  rw [Ends, build_of_unbound rfl root]
  apply Ends.bind
  apply (enter_ends name root).keep.mono
  rintro _ c ⟨henter, hentered, -⟩
  apply (complete_ends hentered honce).mono
  rintro _ c' ⟨i, m, s, hfurnish, hdone⟩
  exact ⟨i, m, s, hdone, (bind_of_ok henter).trans hfurnish⟩

end Build

namespace Context

variable {name : String} {root : Expr} {bindings : List Expr} {i m c : Context} {s : Inference.State}
  {d : Document} {k k' : Nat}

theorem after_of_ends {α : Type} {p : Build α} {Q : α → Context → Prop}
    (h : Build.Ends p c Q) : ∃ a c', c.after p = (c', .ok a) ∧ Q a c' := by
  obtain ⟨a, c', hp, hQ⟩ := h
  exact ⟨a, c', by rw [after, hp], hQ⟩

/-- Whatever a document is lowered to can be built. -/
theorem exists_outcome (hroot : d.lower k = .ok root k') (name : String) :
    ∃ c t, (initial name).build root = (c, .ok t) ∧ ∃ i m s, Outcome name root i m s c := by
  obtain ⟨t, c, hbuild, h⟩ :=
    after_of_ends (Build.build_ends name root (Document.count_lower_le_one hroot))
  exact ⟨c, t, hbuild, h⟩

theorem exists_outcome_of_eq (hroot : d.lower k = .ok root k')
    (hc : c = ((initial name).build root).1) : ∃ i m s, Outcome name root i m s c := by
  obtain ⟨c', t, hbuild, h⟩ := exists_outcome hroot name
  rw [hc, hbuild]
  exact h

theorem Completed.built (h : Completed bindings i m s c) : Built m s c :=
  h.ended ▸ Build.built_ended m s

theorem Completed.typeOf?_eq (h : Completed bindings i m s c) (node : Tree.NodeId) :
    c.inference.typeOf? node = s.typeOf? node := by
  rw [h.built.inference]
  rfl

end Context
end Binder
