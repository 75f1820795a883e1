import Binder.Proofs.Module.Declaring

/-! Filling the types of a module. The builders of all declared types are opened before any member is
resolved, and extensions add members to them. Once they are finished, every type that the module
mentions is built, and only the values are left to be bound. -/
namespace Binder

open Binder.Tree (Expr Mark NodeId)

variable {s : SymbolId}

namespace Context

variable {V : List SymbolId} {roots roots' : List BuilderId} {c c' c'' : Context}
  {xs ys ds es : List Expr} {x e : Expr}

theorem Standing.perm (h : c.Standing V roots) (hp : roots.Perm roots') : c.Standing V roots' where
  toCoherent := h.toCoherent
  nodup := hp.nodup_iff.mp h.nodup
  outermost r hr := h.outermost r (hp.mem_iff.mpr hr)
  open_iff hb := by
    rw [h.open_iff hb]
    simp only [hp.mem_iff]

theorem Standing.exists_bound {i : Nat} {b : TypeBuilder} (h : c.Standing V [])
    (hb : c.builders[i]? = some b) : ∃ t, c.graph.bound? b.symbol = some t := by
  apply Option.ne_none_iff_exists'.mp
  intro hopen
  obtain ⟨r, hr, -⟩ := (h.open_iff hb).mp hopen
  cases hr

theorem Standing.isBound (h : c.Standing V []) (hs : c.Known V s) :
    c.graph.isBound s := by
  rcases hs.2.1 with hbound | ⟨i, b, hb, rfl⟩
  · exact hbound
  · exact TypeGraph.isBound_iff.mpr (h.exists_bound hb)

theorem Standing.settled (h : c.Standing V []) : c.graph.Settled V (c.diagnostics = []) := by
  apply h.graph.mono
  intro s hs
  exact ⟨h.isBound hs, hs.1, hs.2.2⟩

/-- Nodes were resolved, and some fallbacks are known to be kept. -/
structure Filled (V : List SymbolId) (roots : List BuilderId) (nodes defaults : List Expr)
    (c c' : Context) : Prop where
  resolved : Resolved V roots nodes c c'
  keeps : c'.diagnostics = [] → c'.Keeps defaults

namespace Filled

theorem refl (h : c.Resolvable V roots) : Filled V roots [] [] c c := ⟨.refl h, fun _ => nofun⟩

theorem trans (h : Filled V roots xs ds c c') (h' : Filled V roots' ys es c' c'') :
    Filled V roots' (xs ++ ys) (ds ++ es) c c'' where
  resolved := h.resolved.trans h'.resolved
  keeps hclean d hd := by
    have hlater := h'.resolved.resolves
    rcases List.mem_append.mp hd with hd | hd
    · exact hlater.keeps (h.keeps (hlater.clean hclean)) d hd
    · exact h'.keeps hclean d hd

end Filled

theorem Resolved.unclean (h : Resolved V roots xs c c') (hnot : c'.diagnostics ≠ []) :
    Filled V roots (xs ++ ys) ds c c' where
  resolved := h.trans
    (.of_fallbacks_eq h.resolvable (.refl V c') rfl fun hclean => absurd hclean hnot)
  keeps hclean := absurd hclean hnot

def extended (c : Context) : Context := { c with extensions := [] }

theorem Resolvable.extended (h : c.Resolvable V roots) : c.extended.Resolvable V roots where
  graph := h.graph
  quiet := h.quiet
  forest := h.forest
  builder := h.builder
  distinct := h.distinct
  uses := h.uses
  offered := h.offered
  kept := h.kept
  laid hb := ⟨(h.laid hb).names, (h.laid hb).nested, (h.laid hb).types, (h.laid hb).made⟩
  plain := h.plain
  nodup := h.nodup
  outermost := h.outermost
  open_iff := h.open_iff
  scope := h.scope

theorem Resolves.extended (h : Resolves V c c') : Resolves V c.extended c'.extended where
  backdrop := by
    have hbackdrop := congrArg Context.extended h.backdrop
    exact hbackdrop
  graph := h.graph
  names := h.names
  values := h.values
  builders := h.builders
  fallbacks := h.fallbacks
  diagnostics := h.diagnostics

theorem Filled.extended (h : Filled V roots xs ds c c') :
    Filled V roots xs ds c.extended c'.extended where
  resolved :=
    { resolvable := h.resolved.resolvable.extended
      resolves := h.resolved.resolves.extended
      charge := h.resolved.charge
      defaults := h.resolved.defaults
      expecting := h.resolved.expecting }
  keeps := h.keeps

/-- A binding has been provided for: a value is declared, an expression is still to be inferred, and
of types and extensions nothing is left to do but the fallbacks that are kept. -/
def Provided (c : Context) (e : Expr) : Prop :=
  match e.declaredMembers?, e with
  | none, .definition note mutable name ascription value =>
      (⟨note, mutable, name, ascription, value⟩ : Definition) ∈ c.values.map ModuleValue.definition
  | none, .extension note target members =>
      ∀ x ∈ (Tree.Node.extension note target members).preorder, ∀ d ∈ x.defaults, c.Pledges x d
  | some _, e => ∀ x ∈ e.preorder, ∀ d ∈ x.defaults, c.Pledges x d
  | none, e => e ∈ c.expressions

def declaredDefaults (c : Context) : List Expr :=
  c.declared.flatMap fun d => d.members.flatMap Tree.Member.defaults

def extensionDefaults (c : Context) : List Expr :=
  c.extensions.flatMap fun x => x.members.flatMap Tree.Member.defaults

/-- The types of a module are built, and inference may begin. -/
structure Furnished (bindings : List Expr) (c : Context) : Prop where
  resolvable : c.Resolvable c.valueSymbols []
  expecting : c.Expecting c.valueSymbols
  unbound : ∀ s ∈ c.valueSymbols, c.graph.bound? s = none
  inference : c.inference = .initial c.graph c.rootScope
  names : ∀ {name m}, c.rootScope.find? name = some (.value m) →
    m.type ∈ c.valueSymbols ∨ m.type.index < Prelude.error.index
  charge : ∀ n, c.pledged n +
    Tree.count n ((c.values.map ModuleValue.definition).flatMap Definition.nodes) +
    Tree.count n (Tree.preorderOf c.expressions) ≤ Tree.count n (Tree.preorderOf bindings)
  covers : c.diagnostics = [] → ∀ e ∈ bindings, c.Provided e

theorem Keeps.pledges {d : Expr} (h : c.Keeps ds) (hd : d ∈ ds) : c.Pledges x d := by
  obtain ⟨s, hs⟩ := h d hd
  exact ⟨d, s, hs, .inl rfl⟩

theorem defaults_of_declaredMembers? {members : List (Tree.Member Mark)}
    (h : e.declaredMembers? = some members) (hx : x ∈ e.preorder) :
    x.defaults = [] ∨ x.defaults = members.flatMap Tree.Member.defaults ∨
      x ∈ Tree.preorderMembers members := by
  unfold Tree.Node.declaredMembers? at h
  split at h
  next note name note' members' =>
    cases h
    rcases List.mem_cons.mp hx with rfl | hx
    · exact .inl rfl
    · rcases List.mem_cons.mp hx with rfl | hx
      · exact .inr (.inl rfl)
      · exact .inr (.inr hx)
  next => cases h

theorem Filled.provided
    (h : Filled V [] (c.declared.flatMap DeclaredType.nodes ++ c.extensions.flatMap Extension.nodes)
      (c.declaredDefaults ++ c.extensionDefaults) c.extended c')
    (hclean : c'.diagnostics = []) (hfiled : c.refiled.Filed e) : c'.Provided e := by
  have hkeeps := h.keeps hclean
  have hvalues : c'.values = c.values := h.resolved.resolves.unchanged Context.values fun _ => rfl
  have hexpressions : c'.expressions = c.expressions :=
    h.resolved.resolves.unchanged Context.expressions fun _ => rfl
  have hpledges := h.resolved.defaults hclean
  unfold Filed at hfiled
  unfold Provided
  split at hfiled
  next members hmembers =>
    obtain ⟨d, hd, rfl⟩ := hfiled
    rw [hmembers]
    intro x hx y hy
    rcases defaults_of_declaredMembers? hmembers hx with hnil | hliteral | hinside
    · rw [hnil] at hy
      cases hy
    · rw [hliteral] at hy
      exact hkeeps.pledges (List.mem_append_left _ (List.mem_flatMap.mpr ⟨d, hd, hy⟩))
    · exact hpledges x (List.mem_append_left _ (List.mem_flatMap.mpr ⟨d, hd, hinside⟩)) y hy
  next hmembers =>
    rw [hmembers, hvalues]
    exact hfiled
  next note target members hmembers =>
    rw [hmembers]
    intro x hx y hy
    simp only [Tree.Node.preorder, List.cons_append, List.mem_cons] at hx
    rcases hx with rfl | hinside
    · exact hkeeps.pledges (List.mem_append_right _ (List.mem_flatMap.mpr ⟨_, hfiled, hy⟩))
    · exact hpledges x (List.mem_append_right _ (List.mem_flatMap.mpr ⟨_, hfiled, hinside⟩)) y hy
  next hdefinition hextension hmembers =>
    rw [hmembers]
    split
    next => exact (hdefinition _ _ _ _ _ rfl).elim
    next => exact (hextension _ _ _ rfl).elim
    next hsome => cases hsome
    next => exact hexpressions ▸ hfiled

theorem Declared.furnished {bindings : List Expr} (hc : c.Declared bindings)
    (h : Filled c.valueSymbols [] (c.declared.flatMap DeclaredType.nodes ++
        c.extensions.flatMap Extension.nodes) (c.declaredDefaults ++ c.extensionDefaults)
      c.extended c') : c'.Furnished bindings := by
  have hr := h.resolved.resolves
  have hvalues : c'.values = c.values := hr.unchanged Context.values fun _ => rfl
  have hexpressions : c'.expressions = c.expressions := hr.unchanged Context.expressions fun _ => rfl
  have hsymbols : c'.valueSymbols = c.valueSymbols := by rw [valueSymbols, hvalues, valueSymbols]
  have hroot : c'.rootScope = c.rootScope := hr.unchanged Context.rootScope fun _ => rfl
  have hinference : c'.inference = .initial c'.graph c'.rootScope := by
    have heq := congrArg (fun s : Inference.State => { s with graph := c'.graph }) hc.inference
    rw [hroot, hr.inference]
    exact heq
  constructor
  · exact hsymbols ▸ h.resolved.resolvable
  · rw [hsymbols]
    apply h.resolved.expecting
    intro p hp
    rw [show c.extended.fallbacks = [] from hc.fallbacks] at hp
    cases hp
  · intro s hs
    rw [hsymbols] at hs
    exact (hr.values s hs).trans (hc.unbound s hs)
  · exact hinference
  · intro name m hm
    rw [hsymbols]
    exact hc.names (hroot ▸ hm)
  · intro n
    have hle := hc.charge n
    have hpledged := h.resolved.charge n
    have hnone : c.extended.pledged n = 0 := by
      rw [pledged, show c.extended.fallbacks = [] from hc.fallbacks]
      rfl
    simp only [material, refiled, Tree.count_append] at hle
    rw [hnone, Tree.count_append] at hpledged
    rw [hvalues, hexpressions]
    omega
  · intro hclean e he
    exact h.provided hclean (hc.covers (hr.clean hclean) e he)

end Context

namespace Build

open Context

variable {V : List SymbolId} {roots : List BuilderId} {c c' : Context} {bindings : List Expr}
  {opened : List (BuilderId × List (Tree.Member Mark) × List Plan)}

theorem forM_filled {α : Type} {f : α → Build Unit} (nodes defaults : α → List Expr) (l : List α)
    (h : c.Resolvable V roots)
    (hstep : ∀ a ∈ l, ∀ c', c'.Resolvable V roots → Resolves V c c' →
      Ends (f a) c' fun _ c'' => Filled V roots (nodes a) (defaults a) c' c'') :
    Ends (l.forM f) c fun _ c' =>
      Filled V roots (l.flatMap nodes) (l.flatMap defaults) c c' := by
  apply Ends.forM_done (I := fun done c' =>
    Filled V roots (done.flatMap nodes) (done.flatMap defaults) c c') l ?_ (.refl h)
  intro done a ha c' hdone
  apply (hstep a ha c' hdone.resolved.resolvable hdone.resolved.resolves).mono
  intro _ c'' hfilled
  simpa using hdone.trans hfilled

theorem fill_ends (members : List (Tree.Member Mark)) (plans : List Plan) (id : BuilderId)
    (receiver : Option SymbolId) (h : c.Resolvable V roots)
    (hplans : c.diagnostics = [] → Planned members plans) :
    Ends (do populate id receiver members; populateNested members plans) c fun _ c' =>
      Filled V roots (Tree.preorderMembers members) (members.flatMap Tree.Member.defaults) c c' := by
  apply Ends.bind
  apply (populate_ends members id receiver h).mono
  intro _ c₁ hown
  have hclean := hown.own.resolves.clean
  apply (populateNested_ends members plans hown.own.resolvable fun hc => hplans (hclean hc)).mono
  intro _ c₂ hnested
  constructor
  · exact (hown.own.trans hnested).perm (Tree.ownNodes_append_nestedNodes members)
  · intro hc
    exact hnested.resolves.keeps (hown.keeps (hnested.resolves.clean hc))

/-- Some of the declared types have builders; those that are still to do have none. -/
structure Opened (V : List SymbolId) (c : Context) (todo : List DeclaredType)
    (opened : List (BuilderId × List (Tree.Member Mark) × List Plan)) (c' : Context) : Prop where
  resolves : Resolves V c c'
  standing : c'.Standing V (opened.map Prod.fst).reverse
  fallbacks : c'.fallbacks = c.fallbacks
  known : ∀ d ∈ c.declared, d ∈ todo ∨ c'.Known V d.entry.symbol
  free : ∀ d ∈ todo, c'.Free V d.entry.symbol
  nodup : (todo.map fun d => d.entry.symbol).Nodup
  members : opened.map (fun o => o.2.1) ++ todo.map DeclaredType.members =
    c.declared.map DeclaredType.members
  planned : c'.diagnostics = [] → ∀ o ∈ opened, Planned o.2.1 o.2.2

theorem Opened.start (h : c.Declared bindings) : Opened c.valueSymbols c c.declared [] c where
  resolves := .refl _ c
  standing := h.standing
  fallbacks := rfl
  known _ hd := .inl hd
  free _ hd := h.free _ (List.mem_map_of_mem hd)
  nodup := h.nodup
  members := rfl
  planned _ := nofun

theorem Opened.step {d : DeclaredType} {todo : List DeclaredType}
    (h : Opened V c (d :: todo) opened c') :
    Ends (openType d) c' fun o c'' => Opened V c todo (opened ++ [o]) c'' := by
  obtain ⟨hother, hnodup⟩ := List.nodup_cons.mp h.nodup
  apply Ends.bind
  apply (newBuilder_ends h.standing (h.free d List.mem_cons_self) none).mono
  intro id c₁ hopens
  obtain ⟨b, hb, hopen⟩ := hopens.fresh
  apply Ends.bind
  apply (declareNested_ends id d.members hopens.standing hb hopen).mono
  rintro plans c₂ ⟨hdeclares, hplanned⟩
  have hresolves := hopens.resolves.trans hdeclares.resolves
  apply Ends.pure
  constructor
  · exact h.resolves.trans hresolves
  · simpa using hdeclares.standing
  · exact hdeclares.fallbacks.trans (hopens.fallbacks.trans h.fallbacks)
  · intro d' hd'
    rcases h.known d' hd' with hmem | hknown
    · rcases List.mem_cons.mp hmem with rfl | hmem
      · exact .inr (hdeclares.resolves.known hopens.known)
      · exact .inl hmem
    · exact .inr (hresolves.known hknown)
  · intro d' hd'
    have hne : d'.entry.symbol ≠ d.entry.symbol := by
      intro heq
      exact hother (List.mem_map.mpr ⟨d', hd', heq⟩)
    exact hdeclares.free (hopens.free hne (h.free d' (List.mem_cons_of_mem d hd')))
  · exact hnodup
  · simpa using h.members
  · intro hclean o ho
    rcases List.mem_append.mp ho with ho | ho
    · exact h.planned (hresolves.clean hclean) o ho
    · rw [List.mem_singleton.mp ho]
      exact hplanned hclean

theorem Opened.resolvable (h : Opened c.valueSymbols c [] opened c') (hc : c.Declared bindings) :
    c'.Resolvable c.valueSymbols (opened.map Prod.fst) where
  toStanding := h.standing.perm (List.reverse_perm _)
  scope := by
    intro name entry hfind
    rw [h.resolves.find?, find?, hc.root] at hfind
    rcases hc.names hfind with hregistered | hlt
    · obtain ⟨d, hd, heq⟩ := List.mem_map.mp hregistered
      rcases h.known d hd with hnil | hknown
      · cases hnil
      · exact heq ▸ hknown
    · obtain ⟨hsymbol, hbound, hne⟩ := Prelude.bound_of_lt hlt
      have hgraph := h.standing.graph
      exact ⟨hgraph.notMem_of_prelude hsymbol, .inl (hgraph.prelude.isBound hbound), fun _ => hne⟩

theorem Opened.fill_ends (h : Opened c.valueSymbols c [] opened c') (hc : c.Declared bindings) :
    Ends (opened.forM fun (id, members, plans) => do
        populate id none members
        populateNested members plans) c' fun _ c'' =>
      Filled c.valueSymbols (opened.map Prod.fst) (c.declared.flatMap DeclaredType.nodes)
        c.declaredDefaults c' c'' := by
  have hmembers : opened.map (fun o => o.2.1) = c.declared.map DeclaredType.members := by
    simpa using h.members
  apply (forM_filled (fun o => Tree.preorderMembers o.2.1)
    (fun o => o.2.1.flatMap Tree.Member.defaults) opened (h.resolvable hc) ?_).mono
  · intro _ c₂ hfilled
    have hnodes : opened.flatMap (fun o => Tree.preorderMembers o.2.1) =
        c.declared.flatMap DeclaredType.nodes := by
      have heq := congrArg (List.flatMap Tree.preorderMembers) hmembers
      rw [List.flatMap_map, List.flatMap_map] at heq
      exact heq
    have hdefaults : opened.flatMap (fun o => o.2.1.flatMap Tree.Member.defaults) =
        c.declaredDefaults := by
      have heq := congrArg (List.flatMap (List.flatMap Tree.Member.defaults)) hmembers
      rw [List.flatMap_map, List.flatMap_map] at heq
      exact heq
    rwa [hnodes, hdefaults] at hfilled
  · rintro ⟨id, members, plans⟩ ho c₂ hc₂ hr
    exact Build.fill_ends members plans id none hc₂ fun hclean => h.planned (hr.clean hclean) _ ho

/-- Opens and fills the builders of all declared types; the answer are the outermost builders. -/
def declareTypes : Build (List BuilderId) := do
  let opened ← (← get).declared.mapM openType
  opened.forM fun (id, members, plans) => do
    populate id none members
    populateNested members plans
  return opened.map Prod.fst

theorem makeTypes_eq : makeTypes = (do
    let outermost ← declareTypes
    extendTypes
    outermost.forM finishTypes) := by
  simp only [makeTypes, makeTypesBy, declareTypes, bind_assoc, pure_bind]

theorem declareTypes_ends (h : c.Declared bindings) :
    Ends declareTypes c fun outermost c' =>
      Filled c.valueSymbols outermost (c.declared.flatMap DeclaredType.nodes)
        c.declaredDefaults c c' := by
  refine Ends.bind (Ends.get (Ends.bind ?_))
  apply (Ends.mapM (fun d todo opened c' => Opened.step) c.declared (.start h)).mono
  intro opened c₁ hopened
  rw [List.nil_append] at hopened
  apply Ends.bind
  apply (hopened.fill_ends h).mono
  intro _ c₂ hfilled
  apply Ends.pure
  have hopens : Filled c.valueSymbols (opened.map Prod.fst) [] [] c c₁ :=
    ⟨.of_fallbacks_eq (hopened.resolvable h) hopened.resolves hopened.fallbacks fun _ => by simp,
      fun _ => nofun⟩
  exact hopens.trans hfilled

theorem getElem?_of_builderOf? {id : BuilderId} (h : c.builderOf? s = some id) :
    ∃ b, c.builders[id.index]? = some b ∧ b.symbol = s := by
  obtain ⟨i, hi, rfl⟩ := Option.map_eq_some_iff.mp h
  obtain ⟨hlt, hsymbol, -⟩ := Array.findIdx?_eq_some_iff_getElem.mp hi
  exact ⟨_, Array.getElem?_eq_getElem hlt, by simpa using hsymbol⟩

theorem extend_ends (h : c.Resolvable V roots) (x : Extension) :
    Ends (extend x) c fun _ c' =>
      Filled V roots x.nodes (x.members.flatMap Tree.Member.defaults) c c' := by
  apply Ends.bind
  apply (resolveType_ends x.target none h).mono
  rintro target c₁ ⟨htarget, hknown⟩
  refine Ends.bind (Ends.get ?_)
  split
  next herror =>
    -- The error type is only found where something is wrong with the target.
    have heq := htarget.resolvable.graph.error hknown.1 herror
    exact Ends.pure (htarget.unclean fun hclean => hknown.2.2 hclean heq)
  next =>
    split
    next id hid hfree =>
      obtain ⟨b, hb, rfl⟩ := getElem?_of_builderOf? hid
      have hopen : c₁.graph.bound? b.symbol = none := by
        simpa [TypeGraph.isBound] using hfree
      apply Ends.bind
      apply (declareNested_ends id x.members htarget.resolvable.toStanding hb hopen).mono
      rintro plans c₂ ⟨hdeclares, hplanned⟩
      have hdeclared := hdeclares.resolved htarget.resolvable
      apply (fill_ends x.members plans id (some b.symbol) hdeclared.resolvable hplanned).mono
      intro _ c₃ hfilled
      have hbefore : Filled V roots x.target.preorder [] c c₂ :=
        ⟨by simpa using htarget.trans hdeclared, fun _ => List.forall_mem_nil _⟩
      exact hbefore.trans hfilled
    next =>
      apply Ends.report
      apply (htarget.reported _).unclean
      simp [reported]

theorem extendTypes_ends (h : c.Resolvable V roots) :
    Ends extendTypes c fun _ c' =>
      Filled V roots (c.extensions.flatMap Extension.nodes) c.extensionDefaults
        c.extended c' := by
  refine Ends.bind (Ends.get (Ends.bind (Ends.modify ?_)))
  apply forM_filled _ _ c.extensions h.extended
  intro x _ c' hc' _
  exact extend_ends hc' x

theorem finishAll_ends (h : c.Resolvable V roots) :
    Ends (roots.forM finishTypes) c fun _ c' => Filled V [] [] [] c c' := by
  have hloop := Ends.forM (f := finishTypes) (I := fun rest c' =>
    Resolves V c c' ∧ c'.Standing V rest ∧ c'.fallbacks = c.fallbacks) ?_ roots
    ⟨.refl V c, h.toStanding, rfl⟩
  · apply hloop.mono
    rintro _ c' ⟨hr, hstanding, hfallbacks⟩
    exact ⟨.of_fallbacks_eq (h.of_standing hr hstanding) hr hfallbacks fun _ => by simp,
      fun _ => nofun⟩
  · rintro r rest c' ⟨hr, hstanding, hfallbacks⟩
    apply (finishTypes_ends hstanding).mono
    rintro _ c'' ⟨hr', hstanding', hfallbacks'⟩
    exact ⟨hr.trans hr', hstanding', hfallbacks'.trans hfallbacks⟩

theorem makeTypes_ends (h : c.Declared bindings) :
    Ends makeTypes c fun _ c' => c'.Furnished bindings ∧ Resolves c.valueSymbols c.extended c' := by
  rw [makeTypes_eq]
  apply Ends.bind
  apply (declareTypes_ends h).mono
  intro outermost c₂ hdeclared
  apply Ends.bind
  apply (extendTypes_ends hdeclared.resolved.resolvable).mono
  intro _ c₃ hextended
  apply (finishAll_ends hextended.resolved.resolvable).mono
  intro _ c₄ hfinished
  have hextensions : c₂.extensions = c.extensions :=
    hdeclared.resolved.resolves.unchanged Context.extensions fun _ => rfl
  have hdefaults : c₂.extensionDefaults = c.extensionDefaults := by
    rw [extensionDefaults, hextensions, extensionDefaults]
  rw [hextensions, hdefaults] at hextended
  have hfilled := hdeclared.extended.trans (hextended.trans hfinished)
  exact ⟨h.furnished (by simpa using hfilled), hfilled.resolved.resolves⟩

/-- Declares the values of a module and makes its types. -/
def furnish : Build Unit := do
  declareValues
  makeTypes

theorem furnish_ends (h : c.Entered bindings) :
    Ends furnish c fun _ c' => c'.Furnished bindings := by
  apply Ends.bind
  apply (declareValues_ends h).mono
  intro _ c₁ hc₁
  exact (makeTypes_ends hc₁).mono fun _ _ hc => hc.1

end Build
end Binder
