import Binder.Proofs.Module.Resolution

/-! The induction over type expressions. Type literals and their members are resolved in the order in
which they are declared and filled; none of the passes involved ever fails. -/
namespace Binder

open Binder.Tree (Expr Mark)

variable {name : String}

namespace Context

variable {V : List SymbolId} {roots roots' : List BuilderId} {c c' c'' : Context} {x : Expr}
  {nodes : List Expr}

theorem Resolved.plain (h : Resolved V roots nodes c c') (hx : x.defaults = []) :
    Resolved V roots (x :: nodes) c c' :=
  h.cons fun _ d hd => by simp [hx] at hd

theorem Resolved.barren {more : List Expr} (h : Resolved V roots nodes c c')
    (hmore : ∀ y ∈ more, y.defaults = []) : Resolved V roots (nodes ++ more) c c' :=
  h.trans (.of_fallbacks_eq h.resolvable (.refl V c') rfl fun _ => hmore)

/-- The fields and signatures of a literal are in its builder. -/
structure Populated (V : List SymbolId) (roots : List BuilderId)
    (members : List (Tree.Member Mark)) (c c' : Context) : Prop where
  own : Resolved V roots (Tree.ownNodes members) c c'
  keeps : c'.diagnostics = [] → c'.Keeps (members.flatMap Tree.Member.defaults)

theorem Populated.literal {members : List (Tree.Member Mark)} (h : Populated V roots members c c')
    (hx : x.defaults = members.flatMap Tree.Member.defaults)
    (hnested : Resolved V roots' (Tree.nestedNodes members) c' c'') :
    Resolved V roots' (x :: Tree.preorderMembers members) c c'' := by
  refine Resolved.cons ((h.own.trans hnested).perm (Tree.ownNodes_append_nestedNodes members)) ?_
  intro hclean
  rw [hx]
  exact hnested.resolves.keeps (h.keeps (hnested.resolves.clean hclean))

/-- Parameters are resolved, and their fallbacks are to be inferred. -/
structure Parameterised (V : List SymbolId) (roots : List BuilderId)
    (parameters : List (Tree.Parameter Mark)) (c : Context) (ps : List Parameter) (c' : Context) :
    Prop where
  resolved : Resolved V roots (Tree.preorderParameters parameters) c c'
  known : ∀ p ∈ ps, c'.Known V p.type
  offered : ∀ {p e}, p ∈ ps → p.fallback = some e → (e, p.type) ∈ c'.fallbacks
  keeps : c'.diagnostics = [] → c'.Keeps (parameters.filterMap Tree.Parameter.fallback)

theorem Parameterised.cons {type : Expr} {fallback : Option Expr} {s : SymbolId}
    {rest : List (Tree.Parameter Mark)} {ps : List Parameter}
    (h : Parameterised V roots rest c' ps c'')
    (hdone : Resolved V roots (Tree.Parameter.mk name type fallback).preorder c c')
    (hknown : c'.Known V s) (hoffer : ∀ e, fallback = some e → (e, s) ∈ c'.fallbacks) :
    Parameterised V roots (.mk name type fallback :: rest) c (⟨name, s, fallback⟩ :: ps) c'' := by
  have hlater := h.resolved.resolves
  refine ⟨hdone.trans h.resolved, ?_, ?_, ?_⟩
  · intro p hp
    rcases List.mem_cons.mp hp with rfl | hp
    · exact hlater.known hknown
    · exact h.known p hp
  · intro p e hp he
    rcases List.mem_cons.mp hp with rfl | hp
    · exact hlater.fallbacks.subset (hoffer e he)
    · exact h.offered hp he
  · intro hclean d hd
    obtain ⟨p, hp, hd'⟩ := List.mem_filterMap.mp hd
    rcases List.mem_cons.mp hp with rfl | hp
    · exact ⟨s, hlater.fallbacks.subset (hoffer d hd')⟩
    · exact h.keeps hclean d (List.mem_filterMap.mpr ⟨p, hp, hd'⟩)

end Context

namespace Build

open Context

variable {V : List SymbolId} {roots : List BuilderId} {c c' : Context} {symbol : SymbolId}
  {nodes : List Expr}

/-- A builder has been opened for a symbol, and it is outermost. -/
structure Opens (V : List SymbolId) (roots : List BuilderId) (symbol : SymbolId) (c : Context)
    (id : BuilderId) (c' : Context) : Prop where
  resolves : Resolves V c c'
  standing : c'.Standing V (id :: roots)
  fallbacks : c'.fallbacks = c.fallbacks
  known : c'.Known V symbol
  free : ∀ {s}, s ≠ symbol → c.Free V s → c'.Free V s
  fresh : ∃ b, c'.builders[id.index]? = some b ∧ c'.graph.bound? b.symbol = none

theorem newBuilder_ends (h : c.Standing V roots) (hfree : c.Free V symbol)
    (scope : Option BuilderId) :
    Ends (newBuilder symbol none scope) c fun id c' => Opens V roots symbol c id c' := by
  refine Ends.newBuilder fun b hb => ?_
  have hsymbol : b.symbol = symbol := by rw [hb]
  refine
    { resolves := resolves_push b
      standing := h.push (hsymbol ▸ hfree) (by rw [hb]) (by rw [hb]; nofun) (by rw [hb]) (by rw [hb])
        (by rw [hb])
      fallbacks := rfl
      known := ⟨hfree.notMem, .inr ⟨c.builders.size, b, by simp, hsymbol⟩,
        fun _ => ne_error_of_le hfree.own⟩
      free := ?_, fresh := ⟨b, by simp, ?_⟩ }
  · intro s hne hs
    refine ⟨hs.own, hs.unbound, hs.notMem, ?_⟩
    intro i x hx
    rcases getElem?_push_cases hx with ⟨-, rfl⟩ | ⟨-, hx⟩
    · exact fun heq => hne (heq.symm.trans hsymbol)
    · exact hs.unused hx
  · rw [hsymbol]
    exact (TypeGraph.isUnbound_iff.mp hfree.unbound).2

theorem Opens.resolved {id : BuilderId} (h : Opens V roots symbol c id c')
    (hc : c.Resolvable V roots) : Resolved V (id :: roots) [] c c' :=
  .of_fallbacks_eq (hc.of_standing h.resolves h.standing) h.resolves h.fallbacks fun _ => by simp

theorem skipped {p : Build Unit} {value : Expr} {rest : List (Tree.Member Mark)}
    (h : c.Resolvable V roots) (hnot : c.diagnostics ≠ [])
    (hrest : Ends p c fun _ c' => Resolved V roots (Tree.nestedNodes rest) c c') :
    Ends p c fun _ c' =>
      Resolved V roots (Tree.nestedNodes (.nested name value :: rest)) c c' := by
  have hvalue : Resolved V roots value.preorder c c :=
    .of_fallbacks_eq h (.refl V c) rfl fun hclean => absurd hclean hnot
  exact hrest.mono fun _ c' hdone => hvalue.trans hdone

mutual

/-- Whatever is written for a type stands for a known symbol. -/
theorem resolveType_ends : (e : Expr) → ∀ (scope : Option BuilderId) {roots : List BuilderId}
    {c : Context}, c.Resolvable V roots → Ends (resolveType scope e) c fun s c' =>
      Resolved V roots e.preorder c c' ∧ c'.Known V s
  | .ident note name, scope, roots, c, h => by
    rw [resolveType, resolveTypeBy]
    refine Ends.bind (Ends.get ?_)
    split
    next s hs =>
      exact Ends.pure ⟨(Resolved.refl h).plain rfl, h.known_of_findEnclosed? hs⟩
    next =>
      split
      next entry hentry => exact Ends.pure ⟨(Resolved.refl h).plain rfl, h.scope hentry⟩
      next => exact reject_ends _ h _ _
      next => exact reject_ends _ h _ _
  | .selection note target member, scope, roots, c, h => by
    rw [resolveType, resolveTypeBy]
    refine Ends.bind ((resolveType_ends target scope h).mono ?_)
    rintro s c₁ ⟨htarget, hknown⟩
    have hdone : Resolved V roots (Tree.Node.selection note target member).preorder c c₁ :=
      htarget.plain rfl
    refine Ends.bind (Ends.get ?_)
    split
    next => exact Ends.pure ⟨hdone, hknown⟩
    next =>
      split
      next nested hnested =>
        exact Ends.pure ⟨hdone, htarget.resolvable.known_of_findNested? hnested⟩
      next => exact reject_after hdone _ _
  | .arrayType note element size, scope, roots, c, h => by
    rw [resolveType, resolveTypeBy]
    refine Ends.bind ((resolveType_ends element scope h).mono ?_)
    rintro s c₁ ⟨helement, hknown⟩
    cases size with
    | none =>
      have hdone : Resolved V roots (Tree.Node.arrayType note element none).preorder c c₁ := by
        simpa [Tree.Node.preorder, Tree.preorderOption] using
          helement.plain (x := .arrayType note element none) rfl
      exact newAnonymous_after hdone nofun fun e he => by cases he; exact hknown
    | some size =>
      refine Ends.bind ((fold_ends helement.resolvable size).mono ?_)
      rintro constant c₂ ⟨rfl, hfold⟩
      have hfolded : Resolved V roots element.preorder c c₂ := by simpa using helement.trans hfold
      have hknown' := hfold.resolves.known hknown
      have hrejected (fault : Fault) : Ends (reject size.span fault) c₂ fun s c' =>
          Resolved V roots (Tree.Node.arrayType note element (some size)).preorder c c' ∧
            c'.Known V s := by
        refine (reject_ends size.preorder hfolded.resolvable _ _).mono ?_
        rintro s c₃ ⟨hreported, herror⟩
        exact ⟨(hfolded.trans hreported).plain rfl, herror⟩
      split
      next n hn =>
        split
        next =>
          have hdone : Resolved V roots (Tree.Node.arrayType note element (some size)).preorder
              c c₂ := (hfolded.barren (Constant.defaults_eq_nil size hn)).plain rfl
          exact newAnonymous_after hdone nofun fun e he => by cases he; exact hknown'
        next => exact hrejected _
      next => exact hrejected _
  | .referenceType note referent, scope, roots, c, h => by
    rw [resolveType, resolveTypeBy]
    refine Ends.bind ((resolveType_ends referent scope h).mono ?_)
    rintro s c₁ ⟨hreferent, hknown⟩
    have hdone : Resolved V roots (Tree.Node.referenceType note referent).preorder c c₁ :=
      hreferent.plain rfl
    exact newAnonymous_after hdone nofun fun e he => by cases he; exact hknown
  | .typeLiteral note members, scope, roots, c, h => by
    rw [resolveType, resolveTypeBy]
    have hsymbol := (declares_newSymbol h.toStanding "").resolved h
    have hfree := (h.toStanding.newSymbol "").2.2
    refine Ends.bind (Ends.withGraph (Ends.bind ?_))
    refine (newBuilder_ends hsymbol.resolvable.toStanding hfree scope).mono ?_
    rintro id c₁ hopens
    obtain ⟨b, hb, hopen⟩ := hopens.fresh
    have hopened := hopens.resolved hsymbol.resolvable
    refine Ends.bind ((declareNested_ends id members hopened.resolvable.toStanding hb hopen).mono ?_)
    rintro plans c₂ ⟨hdeclares, hplanned⟩
    have hdeclared := hdeclares.resolved hopened.resolvable
    refine Ends.bind ((populate_ends members id none hdeclared.resolvable).mono ?_)
    rintro - c₃ hpopulated
    refine Ends.bind ((populateNested_ends members plans hpopulated.own.resolvable ?_).mono ?_)
    · exact fun hclean => hplanned (hpopulated.own.resolves.clean hclean)
    rintro - c₄ hnested
    refine Ends.bind ((finishTypes_ends hnested.resolvable.toStanding).mono ?_)
    rintro - c₅ ⟨hfinish, hstanding, hfallbacks⟩
    have hfinished : Resolved V roots [] c₄ c₅ := .of_fallbacks_eq
      ((hnested.resolvable.of_standing hfinish hstanding)) hfinish hfallbacks fun _ => by simp
    have hliteral : Resolved V (id :: roots) (Tree.Node.typeLiteral note members).preorder c₂ c₄ :=
      hpopulated.literal rfl hnested
    have hall := (((hsymbol.trans hopened).trans hdeclared).trans hliteral).trans hfinished
    refine Ends.pure ⟨by simpa using hall, ?_⟩
    exact ((hdeclared.resolves.trans hliteral.resolves).trans hfinish).known hopens.known
  | .literal .., _, _, _, h | .call .., _, _, _, h | .namedArgument .., _, _, _, h
  | .sequence .., _, _, _, h | .definition .., _, _, _, h | .extension .., _, _, _, h => by
    simp only [resolveType, resolveTypeBy]
    exact reject_ends _ h _ _
termination_by e => sizeOf e

theorem populate_ends : (members : List (Tree.Member Mark)) → ∀ (id : BuilderId)
    (receiver : Option SymbolId) {roots : List BuilderId} {c : Context}, c.Resolvable V roots →
    Ends (populate id receiver members) c fun _ c' => Populated V roots members c c'
  | [], id, receiver, roots, c, h => by
    rw [populate, populateBy]
    exact Ends.pure ⟨.refl h, fun _ => nofun⟩
  | .field name type mutable :: rest, id, receiver, roots, c, h => by
    rw [populate, populateBy]
    refine Ends.bind ((resolveType_ends type (some id) h).mono ?_)
    rintro s c₁ ⟨htype, hknown⟩
    have hrest {c₂ : Context} (hdone : Resolved V roots type.preorder c c₂) :
        Ends (populate id receiver rest) c₂ fun _ c' =>
          Populated V roots (.field name type mutable :: rest) c c' := by
      refine (populate_ends rest id receiver hdone.resolvable).mono ?_
      rintro - c₃ hrest
      exact ⟨hdone.trans hrest.own, hrest.keeps⟩
    refine Ends.bind ((withBuilder_ends htype.resolvable ?_).mono ?_)
    · intro b hb
      exact ⟨htype.resolvable.becomes_addMember hb hknown, b.outline_addMember _⟩
    rintro inserted c₂ hwrite
    have hdone : Resolved V roots type.preorder c c₂ := by simpa using htype.trans hwrite
    split
    · exact hrest hdone
    · exact Ends.bind (Ends.report (hrest (hdone.reported _)))
  | .signature parameters result :: rest, id, receiver, roots, c, h => by
    rw [populate, populateBy]
    refine Ends.bind ((resolveParameters_ends parameters id [] h).mono ?_)
    rintro ps c₁ hps
    refine Ends.bind ((resolveType_ends result (some id) hps.resolved.resolvable).mono ?_)
    rintro s c₂ ⟨hresult, hknown⟩
    refine Ends.bind ((withBuilder_ends hresult.resolvable ?_).mono ?_)
    · intro b hb
      refine ⟨hresult.resolvable.becomes_addSignature hb ?_ ?_, rfl⟩
      · intro s' hs'
        rcases List.mem_cons.mp hs' with rfl | hs'
        · exact hknown
        · obtain ⟨p, hp, rfl⟩ := List.mem_map.mp hs'
          exact hresult.resolves.known (hps.known p hp)
      · intro p e hp he
        exact hresult.resolves.fallbacks.subset (hps.offered hp he)
    rintro - c₃ hwrite
    refine (populate_ends rest id receiver hwrite.resolvable).mono ?_
    rintro - c₄ hrest
    have hlater := (hresult.resolves.trans hwrite.resolves).trans hrest.own.resolves
    refine ⟨?_, fun hclean d hd => ?_⟩
    · simpa [Tree.ownNodes, Tree.Member.preorder] using
        ((hps.resolved.trans hresult).trans hwrite).trans hrest.own
    · rcases List.mem_append.mp hd with hd | hd
      · exact hlater.keeps (hps.keeps (hlater.clean hclean)) d hd
      · exact hrest.keeps hclean d hd
  | .nested name value :: rest, id, receiver, roots, c, h => by
    rw [populate, populateBy]
    exact (populate_ends rest id receiver h).mono fun _ _ hrest => ⟨hrest.own, hrest.keeps⟩
termination_by members => sizeOf members

theorem resolveParameters_ends : (parameters : List (Tree.Parameter Mark)) → ∀ (id : BuilderId)
    (names : List String) {roots : List BuilderId} {c : Context}, c.Resolvable V roots →
    Ends (resolveParameters id names parameters) c fun ps c' =>
      Parameterised V roots parameters c ps c'
  | [], id, names, roots, c, h => by
    rw [resolveParameters, resolveParametersBy]
    exact Ends.pure ⟨.refl h, nofun, nofun, fun _ => nofun⟩
  | .mk name type fallback :: rest, id, names, roots, c, h => by
    rw [resolveParameters, resolveParametersBy]
    refine Ends.bind ((resolveType_ends type (some id) h).mono ?_)
    rintro s c₁ ⟨htype, hknown⟩
    split
    · have hskipped : Resolved V roots (Tree.Parameter.mk name type fallback).preorder c
          (c₁.reported ⟨type.span, .duplicateSymbol⟩) := htype.trans (htype.resolvable.reported _)
      refine Ends.bind (Ends.report ?_)
      refine (resolveParameters_ends rest id names hskipped.resolvable).mono ?_
      rintro ps c₂ hrest
      refine ⟨hskipped.trans hrest.resolved, hrest.known, hrest.offered, fun hclean => ?_⟩
      exact absurd hclean (not_clean_of_reported hrest.resolved.resolves)
    · have hrest {c₂ : Context} (h₂ : c₂.Resolvable V roots) :=
        resolveParameters_ends rest id (name :: names) h₂
      cases fallback with
      | none =>
        have hdone : Resolved V roots (Tree.Parameter.mk name type none).preorder c c₁ := by
          simpa [Tree.Parameter.preorder, Tree.preorderOption] using htype
        refine Ends.bind ((hrest hdone.resolvable).mono ?_)
        rintro ps c₂ hps
        exact Ends.pure (hps.cons hdone hknown nofun)
      | some e =>
        have hpledge := htype.resolvable.pledge e hknown
        refine Ends.bind (Ends.modify (Ends.bind ((hrest hpledge.resolvable).mono ?_)))
        rintro ps c₂ hps
        refine Ends.pure (hps.cons (htype.trans hpledge) (hpledge.resolves.known hknown) ?_)
        intro e' he
        cases he
        simp
termination_by parameters => sizeOf parameters

theorem populateNested_ends (members : List (Tree.Member Mark)) (plans : List Plan)
    {roots : List BuilderId} {c : Context} (h : c.Resolvable V roots)
    (hplans : c.diagnostics = [] → Planned members plans) :
    Ends (populateNested members plans) c fun _ c' =>
      Resolved V roots (Tree.nestedNodes members) c c' := by
  match members with
  | [] =>
    rw [populateNested, populateNestedBy]
    exact Ends.pure (.refl h)
  | m :: rest =>
    rw [populateNested_cons]
    split
    next name note inner symbol child inside plans =>
      have hinside : c.diagnostics = [] → Planned inner inside ∧ Planned rest plans := by
        intro hclean
        cases hplans hclean with
        | nested hinner hrest => exact ⟨hinner, hrest⟩
      refine Ends.bind ((populate_ends inner child none h).mono ?_)
      rintro - c₁ hpopulated
      refine Ends.bind ((populateNested_ends inner inside hpopulated.own.resolvable ?_).mono ?_)
      · exact fun hclean => (hinside (hpopulated.own.resolves.clean hclean)).1
      rintro - c₂ hnested
      have hliteral : Resolved V roots (Tree.Node.typeLiteral note inner).preorder c c₂ :=
        hpopulated.literal rfl hnested
      refine (populateNested_ends rest plans hliteral.resolvable ?_).mono ?_
      · exact fun hclean => (hinside (hliteral.resolves.clean hclean)).2
      rintro - c₃ hrest
      exact hliteral.trans hrest
    next name note inner plans =>
      have hnot : c.diagnostics ≠ [] := fun hclean => nomatch hplans hclean
      exact skipped h hnot (populateNested_ends rest plans h fun hclean => absurd hclean hnot)
    next hother _ =>
      cases m with
      | nested name value =>
        have hnot : c.diagnostics ≠ [] := by
          intro hclean
          cases hplans hclean with
          | nested => exact hother _ _ _ _ _ _ _ rfl rfl
        exact skipped h hnot (populateNested_ends rest plans h fun hclean => absurd hclean hnot)
      | field | signature =>
        refine populateNested_ends rest plans h fun hclean => ?_
        cases hplans hclean
        assumption
termination_by sizeOf members

end

end Build
end Binder
