import Binder.Proofs.Renaming.Building
import Binder.Proofs.Renaming.Retyping

/-! Builds that enumerate tables in any order. Three tables are enumerated: the builders nested in a
builder when it is finished, the live table of a scope when it is frozen, and what still waits for a
type in the end. Whatever the order, the build comes to the same but for the numbers of types. -/
namespace Binder

open Binder.Tree (Expr Mark NodeId)

/-- An order in which the entries of a table are enumerated. -/
structure Order (α : Type) where
  list : List α → List α
  perm : ∀ l, (list l).Perm l

/-- The orders that a build enumerates tables in. Each may depend on all that was done before. -/
structure Choices where
  nested : Context → BuilderId → Order BuilderId
  members : Context → BuilderId → Order Member
  types : Context → BuilderId → Order TypeName
  declarations : Context → Order Declaration
  blocked : Context → Order (SymbolId × Span × Inference.WhenBound)

def ScopeBuilder.freezeIn {α : Type} [Named α] (o : Order α) (b : ScopeBuilder α) :
    Scope α × ScopeBuilder α :=
  (.merge [.ofList (o.list b.live), b.base], withBase b.base)

def TypeBuilder.buildIn (members : Order Member) (types : Order TypeName) (b : TypeBuilder)
    (g : TypeGraph) : TypeId × TypeGraph × TypeBuilder :=
  let (memberScope, memberBuilder) := b.memberScope.freezeIn members
  let (typeScope, typeBuilder) := b.typeScope.freezeIn types
  let (t, g) := g.newType
    { symbol := b.symbol, kind := b.kind, members := b.members, memberScope := memberScope,
      typeScope := typeScope, signatures := b.signatures, container := b.container }
  (t, g, { b with members := [], memberScope := memberBuilder, typeScope := typeBuilder,
                  signatures := [] })

/-- Reports what still waits for a type, drained in some order. -/
def Inference.finishIn (o : Order (SymbolId × Span × WhenBound)) (s : State) : State :=
  let origins := Span.sort ((o.list s.blocked).map fun w => w.2.1)
  { s with
    blocked := []
    diagnostics := s.diagnostics ++ origins.map fun origin => ⟨origin, .unresolvedType⟩ }

namespace Build

def declareValuesIn (χ : Choices) : Build Unit := do
  let definitions := (← get).definitions
  modify fun c => { c with definitions := [] }
  definitions.forM declareValue
  modify fun c =>
    let (root, scope) := c.scope.freezeIn (χ.declarations c)
    { c with scope := scope, root := some root, inference := { c.inference with scope := root } }

def finishTypeIn (χ : Choices) (id : BuilderId) : Build Unit := do
  let c ← get
  match c.builders[id.index]? with
  | none => return ()
  | some builder =>
      let b ← withGraph fun g =>
        let (_, g, b) := builder.buildIn (χ.members c id) (χ.types c id) g
        (b, g)
      withBuilder id () fun _ => ((), b)
      withInference fun s => Inference.bound s builder.symbol

/-- Makes the types of a builder and of those nested in it down to `depth` levels; how the nested ones
are enumerated is decided when their turn has come. -/
def finishTypesIn (χ : Choices) : (depth : Nat) → BuilderId → Build Unit
  | 0, _ => return ()
  | depth + 1, id => do
      let c ← get
      ((χ.nested c id).list (nestedOf c.builders id)).forM (finishTypesIn χ depth)
      finishTypeIn χ id

def finishIn (χ : Choices) (id : BuilderId) : Build Unit := do
  finishTypesIn χ (← get).builders.size id

def checkInferredIn (χ : Choices) : Build Unit :=
  modify fun c =>
    let s := Inference.finishIn (χ.blocked c) c.inference
    let uninferred := c.values.filter fun v => !s.graph.isBound v.member.type
    { c with
      inference := { s with diagnostics := [] }
      foldingFaults := []
      diagnostics := c.diagnostics ++ s.diagnostics ++ c.foldingFaults ++
        uninferred.map fun v => ⟨v.definition.node.span, .cannotInfer v.member.name⟩ }

/-- Builds a module, with orders for all tables that are enumerated. -/
def buildIn (χ : Choices) (root : Expr) : Build TypeId := do
  enter root
  declareValuesIn χ
  makeTypesBy (.asking (finishIn χ))
  (← get).values.forM (inferValueBy (.asking (finishIn χ)))
  inferRest
  (← get).values.forM foldValue
  checkInferredIn χ
  let t ← finishModule
  modify fun c => { c with stage := .built }
  return t

end Build

/-! What is sorted does not depend on the order -/

theorem ScopeBuilder.freezeIn_eq {α : Type} [Named α] (o : Order α) {b : ScopeBuilder α}
    (h : (b.live.map Named.name).Nodup) : b.freezeIn o = b.freeze := by
  rw [freezeIn, Scope.ofList_eq_of_perm (o.perm b.live) h, freeze]

theorem TypeBuilder.buildIn_eq (members : Order Member) (types : Order TypeName) {b : TypeBuilder}
    (hmembers : (b.memberScope.live.map Member.name).Nodup)
    (htypes : (b.typeScope.live.map TypeName.name).Nodup) (g : TypeGraph) :
    b.buildIn members types g = b.build g := by
  have hmemberScope := b.memberScope.freezeIn_eq members hmembers
  have htypeScope := b.typeScope.freezeIn_eq types htypes
  simp only [buildIn, hmemberScope, htypeScope, build]

theorem Inference.finishIn_eq (o : Order (SymbolId × Span × WhenBound)) (s : State) :
    finishIn o s = finish s := by
  rw [finishIn, Span.sort_eq_of_perm ((o.perm s.blocked).map _), finish]

namespace Build

open Context

variable {χ : Choices} {c c' : Context} {V U : List SymbolId} {ν : NodeId ↪ NodeId}

theorem checkInferredIn_eq (χ : Choices) : checkInferredIn χ = checkInferred := by
  unfold checkInferredIn checkInferred
  simp only [Inference.finishIn_eq]

theorem declareValuesIn_eq (name : String) (bindings : List Expr) :
    declareValuesIn χ (entered name .entered bindings) = declareValues (entered name .entered bindings) := by
  let c := valued name bindings (bindings.filterMap Tree.Node.definition?)
  have hfreeze := c.scope.freezeIn_eq (χ.declarations c) (accepts_named name bindings).names
  rw [declareValues_entered]
  show ((bindings.filterMap Tree.Node.definition?).forM declareValue >>= _) _ = _
  rw [bind_of_ok (forM_declareValue_eq name bindings)]
  exact congrArg (fun frozen => EStateM.Result.ok () { c with
    scope := frozen.2, root := some frozen.1, inference := .initial c.graph frozen.1 }) hfreeze

theorem finishTypeIn_eq (h : c.Calm V U) (id : BuilderId) :
    finishTypeIn χ id c = .ok () (c.finishedAt id) := by
  rw [← h.finishType_eq id, finishTypeIn, get_bind, finishType, get_bind]
  cases hb : c.builders[id.index]? with
  | none => rfl
  | some b =>
    obtain ⟨hmembers, htypes⟩ := h.named b (Array.mem_of_getElem? hb)
    simp only [TypeBuilder.buildIn_eq _ _ hmembers htypes]

theorem finishTypesIn_eq (depth : Nat) (h : c.Calm V U) (id : BuilderId) :
    ∃ l : List BuilderId, l.Perm (innermostFirst c.builders depth id) ∧
      finishTypesIn χ depth id c = .ok () (l.foldl Context.finishedAt c) := by
  induction depth generalizing id c with
  | zero => exact ⟨[], .nil, rfl⟩
  | succ depth ih =>
    have hall : ∀ (ids : List BuilderId) {c : Context}, c.Calm V U →
        ∃ l : List BuilderId, l.Perm (ids.flatMap (innermostFirst c.builders depth)) ∧
          ids.forM (finishTypesIn χ depth) c = .ok () (l.foldl Context.finishedAt c) := by
      intro ids
      induction ids with
      | nil => exact fun _ => ⟨[], .nil, rfl⟩
      | cons k ids ihIds =>
        intro c hc
        obtain ⟨l, hl, hrun⟩ := ih hc k
        obtain ⟨l', hl', hrun'⟩ := ihIds (hc.foldl l)
        rw [innermostFirst_congr (nestedOf_foldl c l)] at hl'
        refine ⟨l ++ l', hl.append hl', ?_⟩
        rw [List.foldl_append]
        exact (bind_of_ok hrun).trans hrun'
    obtain ⟨l, hl, hrun⟩ := hall ((χ.nested c id).list (nestedOf c.builders id)) h
    refine ⟨l ++ [id], ?_, ?_⟩
    · rw [innermostFirst_succ]
      exact (hl.trans (((χ.nested c id).perm _).flatMap_right _)).append_right [id]
    · rw [finishTypesIn, get_bind, bind_of_ok hrun, finishTypeIn_eq (h.foldl l), List.foldl_append]
      rfl

theorem calm_of_alike (h : Alike (.renode ν) V U c c') : c'.Calm V U := by
  obtain ⟨hcalm, τ, s', hs, rfl⟩ := h
  have howners : ({ (Renumbering.renode ν).context c with inference := s' } : Context).owners U =
      c.owners U := by
    simp only [owners, Renumbering.context, Array.toList_map, List.map_map]
    rfl
  refine
    { quiet := quiet_renamed hs hcalm.quiet
      values := fun s hV => hs.graph.hasSymbol_iff.mpr (hcalm.values s hV)
      types := ?_
      slots := ?_
      owned := fun s hmem => ?_
      distinct := howners ▸ hcalm.distinct
      named := ?_ }
  · intro s t hbound
    obtain ⟨t, ht, rfl⟩ := Option.map_eq_some_iff.mp ((hs.graph.bound? s).symm.trans hbound)
    exact hs.graph.hasType (hcalm.types ht)
  · intro call gathering hcall t ht
    obtain ⟨x, hx, rfl⟩ := Option.map_eq_some_iff.mp ((hs.calls call).symm.trans hcall)
    obtain ⟨slot, hslot, hmap⟩ := List.mem_map.mp ht
    obtain ⟨t, rfl, rfl⟩ := Option.map_eq_some_iff.mp hmap
    exact hs.graph.hasType (hcalm.slots hx hslot)
  · obtain ⟨hV, hsymbol⟩ := hcalm.owned s (howners ▸ hmem)
    exact ⟨hV, hs.graph.hasSymbol_iff.mpr hsymbol⟩
  · intro b' hb'
    obtain ⟨b, hb, rfl⟩ := Array.mem_map.mp hb'
    exact ⟨(hcalm.named b hb).members, (hcalm.named b hb).types⟩

theorem finishIn_mirrors (χ : Choices) (k : BuilderId) :
    Mirrors (Alike (.renode ν) V U) (Alike (.renode ν) V U) id (finishTypes k) (finishIn χ k) := by
  intro c c' hc _ c₁ hrun
  have hcalm := calm_of_alike hc
  obtain ⟨c₁', hrun', hcalm₁, hrenamed⟩ := finishTypes_mirrors k hc hrun
  have hfinish : finishTypes k c' =
      .ok () ((innermostFirst c'.builders c'.builders.size k).foldl finishedAt c') := by
    rw [finishTypes, get_bind]
    exact hcalm.forM_finishType _
  cases hfinish.symm.trans hrun'
  obtain ⟨l, hl, hrunIn⟩ := finishTypesIn_eq (χ := χ) c'.builders.size hcalm k
  obtain ⟨σ, hσ⟩ := hcalm.exists_retyped hl.symm
  exact ⟨_, hrunIn, hcalm₁, hrenamed.retyped hσ⟩

/-- Of the orders that a build chooses, only those in which builders are finished can be told. -/
theorem buildIn_eq_buildBy (χ : Choices) (name : String) (root : Expr) :
    buildIn χ root (.initial name) = buildBy (.asking (finishIn χ)) root (.initial name) := by
  have henter := enter_eq name root
  have hdeclare := declareValuesIn_eq (χ := χ) name root.bindings
  rw [buildIn, buildBy_initial, checkInferredIn_eq, bind_of_ok henter, bind_of_ok henter]
  simp only [Bind.bind, EStateM.bind, hdeclare]
  rfl

end Build

/-- The order in which tables are enumerated does not matter. However builds choose to enumerate the
builders nested in a builder, the live tables of scopes and what still waits for a type, they come
to the same types of symbols, values, constants and diagnostics. -/
theorem build_enumerated {d : Document} {k k' : Nat} {root : Expr} (χ : Choices) (name : String)
    (hroot : d.lower k = .ok root k') :
    ∃ t c t' c', Build.build root (.initial name) = .ok t c ∧
      Build.buildIn χ root (.initial name) = .ok t' c' ∧
      c'.declared.map DeclaredType.entry = c.declared.map DeclaredType.entry ∧
      (∀ s, c'.graph.typeOf? s = c.graph.typeOf? s) ∧ c'.graph.def? t' = c.graph.def? t ∧
      c'.values = c.values ∧ c'.constants = c.constants ∧ c'.diagnostics = c.diagnostics ∧
      Report.ofContext c' = Report.ofContext c := by
  have hexpr : (Renumbering.renode (.refl _)).expr = id := funext Renumbering.expr_same
  have hbindings : root.bindings = root.bindings.map (Renumbering.renode (.refl _)).expr := by
    rw [hexpr, List.map_id]
  obtain ⟨t, c, _, hbuild, hbuild', ht, hmirrored⟩ := Build.buildBy_mirrored name hbindings
    (Document.count_lower_le_one hroot) fun _ => Build.finishIn_mirrors χ
  rw [← Build.buildIn_eq_buildBy] at hbuild'
  have hreport := hmirrored.report
  obtain ⟨τ, s', hs, hmodule, rfl⟩ := hmirrored
  have hdef : (Renumbering.renode (.refl _)).typeDef = id := funext Renumbering.typeDef_same
  refine ⟨t, c, t, _, hbuild, hbuild', ?_, ?_, ?_, ?_, rfl, rfl, hreport⟩
  · exact List.map_map
  · intro s
    have htype : s'.graph.typeOf? s = _ := hs.graph.typeOf? s
    rwa [hdef, Option.map_id] at htype
  · have htype : s'.graph.def? (τ t) = _ := hs.graph.types t
    rwa [hmodule t ht, hdef, Option.map_id] at htype
  · have hvalue : ∀ v : ModuleValue, (Renumbering.renode (.refl _)).moduleValue v = v := by
      rintro ⟨⟨node, mutable, name, ascription, value⟩, member⟩
      simp only [Renumbering.moduleValue, Renumbering.definition, hexpr, Option.map_id_fun, id]
      rfl
    exact (List.map_congr_left fun v _ => hvalue v).trans (List.map_id _)

/-- Every table from its end to its start. -/
def Order.reversed {α : Type} : Order α := ⟨List.reverse, List.reverse_perm⟩

def Choices.reversed : Choices where
  nested _ _ := .reversed
  members _ _ := .reversed
  types _ _ := .reversed
  declarations _ := .reversed
  blocked _ := .reversed

/-- A type with two types nested in it, and two values that wait for types of their own. -/
def twoOfEach : Document where
  bindings := [
    .definition none false "Outer" none (some (.typeLiteral none [
      .nested "Left" (.typeLiteral none [.field "x" (.ident none "Right") false]),
      .nested "Right" (.typeLiteral none [])])),
    .definition none false "first" none (some (.selection none (.ident none "first") "x")),
    .definition none false "second" none (some (.selection (some ⟨1, ⟨2, 3⟩, ⟨4, 5⟩⟩)
      (.ident none "second") "y"))]

def twoOfEachRoot : Expr := twoOfEach.root

theorem build_enumerated_twoOfEach : twoOfEach.lower 0 = .ok twoOfEachRoot 13 ∧
    ∃ t c t' c', Build.build twoOfEachRoot (.initial "main") = .ok t c ∧
      Build.buildIn .reversed twoOfEachRoot (.initial "main") = .ok t' c' ∧
      c'.declared.map DeclaredType.entry = c.declared.map DeclaredType.entry ∧
      (∀ s, c'.graph.typeOf? s = c.graph.typeOf? s) ∧ c'.graph.def? t' = c.graph.def? t ∧
      c'.values = c.values ∧ c'.constants = c.constants ∧ c'.diagnostics = c.diagnostics ∧
      Report.ofContext c' = Report.ofContext c :=
  have hlower : twoOfEach.lower 0 = .ok twoOfEachRoot 13 := rfl
  ⟨hlower, build_enumerated .reversed "main" hlower⟩

end Binder
