import Binder.Proofs.Renaming.Passes

/-! Resolving type expressions under other numbers. Builders may be finished in some other way; the passes
mirror those of a build as soon as this way of finishing mirrors that of a build. -/
namespace Binder.Build

open Binder.Tree (Expr Mark)

open Context

variable {ρ : Renumbering} {V U : List SymbolId} {finish : BuilderId → Build Unit}

/-- Builders are finished alike under other numbers. -/
def FinishesAlike (ρ : Renumbering) (V U : List SymbolId) (finish : BuilderId → Build Unit) : Prop :=
  ∀ k, Mirrors (Alike ρ V U) (Alike ρ V U) id (finishTypes k) (finish k)

theorem declareNested_mirrors (k : BuilderId) (members : List (Tree.Member Mark)) :
    Mirrors (Alike ρ V U) (Alike ρ V U) id (declareNested k members)
      (declareNested k (members.map ρ.treeMember)) := by
  fun_induction declareNested k members with
  | case1 k =>
    rw [List.map_nil, declareNested]
    exact .pure id _
  | case2 k name note inner rest ihInner ihRest =>
    have hinner : Tree.mapMembers ρ.mark inner = inner.map ρ.treeMember := Tree.mapMembers_eq ..
    rw [List.map_cons, Renumbering.treeMember, Tree.Member.map, Tree.Node.map, hinner, declareNested]
    refine .get_bind fun c c' hc => ?_
    have hcontainer : (c'.builders[k.index]?).map TypeBuilder.symbol =
        (c.builders[k.index]?).map TypeBuilder.symbol := by
      rw [hc.renamed.builder?, Option.map_map]
      rfl
    rw [hcontainer]
    refine newSymbol_mirrors name fun symbol => ?_
    refine (withBuilder_mirrors k false (addType_works ⟨name, symbol⟩)).bind fun inserted => ?_
    cases inserted with
    | true =>
      refine (newBuilder_mirrors symbol _ (some k)).bind fun child => ?_
      refine (withBuilder_mirrors k () (addNested_works symbol child)).bind fun _ => ?_
      exact (ihInner child).bind fun inside => ihRest.bind fun plans => .pure id _
    | false =>
      exact .drop ((report_mirrors _ _).bind fun _ => ihRest.bind fun plans => .pure id _)
  | case3 k name value rest hvalue ih =>
    have hother : ∀ note inner, ρ.expr value = .typeLiteral note inner → False := by
      intro note inner heq
      cases value with
      | typeLiteral note members => exact hvalue note members rfl
      | _ => cases heq
    have hmember : ρ.treeMember (.nested name value) = .nested name (ρ.expr value) := rfl
    rw [List.map_cons, hmember, declareNested.eq_3 _ _ _ _ hother, ρ.span_expr]
    exact (report_mirrors _ _).bind fun _ => ih
  | case4 k member rest hliteral hnested ih =>
    rw [List.map_cons, declareNested.eq_4]
    · exact ih
    · intro name note inner heq
      cases member with
      | nested name value => exact hnested name value rfl
      | _ => cases heq
    · intro name value heq
      cases member with
      | nested name value => exact hnested name value rfl
      | _ => cases heq

theorem resolveName_mirrors (scope : Option BuilderId) (note : Mark) (name : String) :
    Mirrors (Alike ρ V U) (Alike ρ V U) id (resolveType scope (.ident note name))
      (resolveTypeBy (.asking finish) () scope (.ident (ρ.mark note) name)) := by
  rw [resolveType, resolveTypeBy, resolveTypeBy]
  refine .get_bind fun c c' hc => ?_
  dsimp only
  rw [hc.renamed.findEnclosed?, hc.renamed.find?]
  cases c.findEnclosed? scope name with
  | some s => exact .pure id _
  | none =>
    rcases c.find? name with _ | (entry | m)
    · exact reject_mirrors _ _
    · exact .pure id _
    · exact reject_mirrors _ _

theorem select_mirrors (target : SymbolId) (span : Span) (name : String) :
    Mirrors (Alike ρ V U) (Alike ρ V U) id
      (do
        let c ← get
        if c.graph.isError target then return target
        else match c.findNested? target name with
          | some symbol => return symbol
          | none => reject span .memberNotFound)
      (do
        let c ← get
        if c.graph.isError target then return target
        else match c.findNested? target name with
          | some symbol => return symbol
          | none => reject span .memberNotFound) := by
  refine .get_bind fun c c' hc => ?_
  obtain ⟨τ, hg⟩ := hc.renamed.graph
  rw [hg.isError, hc.renamed.findNested?]
  split
  · exact .pure id _
  · cases c.findNested? target name with
    | some s => exact .pure id _
    | none => exact reject_mirrors _ _

theorem array_mirrors (elements : SymbolId) (size : Option Expr) :
    Mirrors (Alike ρ V U) (Alike ρ V U) id
      (match size with
        | none => newAnonymous (.array elements none)
        | some size => do
            match ← fold size with
            | .known (.int n) =>
                if 0 ≤ n.toInt then newAnonymous (.array elements (some n.toInt.toNat))
                else reject size.span .invalidArraySize
            | _ => reject size.span .invalidArraySize)
      (match size.map ρ.expr with
        | none => newAnonymous (.array elements none)
        | some size => do
            match ← fold size with
            | .known (.int n) =>
                if 0 ≤ n.toInt then newAnonymous (.array elements (some n.toInt.toNat))
                else reject size.span .invalidArraySize
            | _ => reject size.span .invalidArraySize) := by
  cases size with
  | none => exact newAnonymous_mirrors (.array elements none)
  | some size =>
    simp only [Option.map_some, Renumbering.span_expr]
    refine (fold_mirrors size).bind fun x => ?_
    split
    · split
      · exact newAnonymous_mirrors _
      · exact reject_mirrors _ _
    · exact reject_mirrors _ _

mutual

/-- Types are resolved alike under other numbers. -/
theorem resolveType_mirrors (hfinish : FinishesAlike ρ V U finish) : (e : Expr) → ∀ scope : Option BuilderId,
    Mirrors (Alike ρ V U) (Alike ρ V U) id (resolveType scope e)
      (resolveTypeBy (.asking finish) () scope (ρ.expr e))
  | .ident note name, scope => resolveName_mirrors scope note name
  | .selection note target member, scope => by
    have htarget : ρ.expr (.selection note target member) =
      .selection (ρ.mark note) (ρ.expr target) member := rfl
    rw [htarget, resolveType, resolveTypeBy, resolveTypeBy]
    exact (resolveType_mirrors hfinish target scope).bind fun s => select_mirrors s note.span member
  | .arrayType note element size, scope => by
    have helement : ρ.expr (.arrayType note element size) =
        .arrayType (ρ.mark note) (ρ.expr element) (size.map ρ.expr) :=
      congrArg (Tree.Node.arrayType _ _) (Tree.mapOption_eq ..)
    rw [helement]
    simp only [resolveType, resolveTypeBy, resolveTypeBy]
    exact (resolveType_mirrors hfinish element scope).bind fun s => array_mirrors s size
  | .referenceType note referent, scope => by
    have hreferent : ρ.expr (.referenceType note referent) =
      .referenceType (ρ.mark note) (ρ.expr referent) := rfl
    rw [hreferent, resolveType, resolveTypeBy, resolveTypeBy]
    exact (resolveType_mirrors hfinish referent scope).bind fun s => newAnonymous_mirrors (.reference s)
  | .typeLiteral note members, scope => by
    have hmembers : ρ.expr (.typeLiteral note members) =
        .typeLiteral (ρ.mark note) (members.map ρ.treeMember) :=
      congrArg (Tree.Node.typeLiteral _) (Tree.mapMembers_eq ..)
    rw [hmembers, resolveType, resolveTypeBy, resolveTypeBy]
    refine newSymbol_mirrors "" fun symbol => ?_
    refine (newBuilder_mirrors symbol none scope).bind fun k => ?_
    refine (declareNested_mirrors k members).bind fun plans => ?_
    refine (populate_mirrors hfinish members k none).bind fun _ => ?_
    refine (populateNested_mirrors hfinish members plans).bind fun _ => ?_
    exact (hfinish k).bind fun _ => .pure id symbol
  | .literal .., _ | .call .., _ | .namedArgument .., _ | .sequence .., _ | .definition .., _
  | .extension .., _ => by
    simp only [Renumbering.expr, Tree.Node.map, resolveType, resolveTypeBy, resolveTypeBy]
    exact reject_mirrors _ _
termination_by e => sizeOf e

theorem populate_mirrors (hfinish : FinishesAlike ρ V U finish) : (members : List (Tree.Member Mark)) →
    ∀ (k : BuilderId) (receiver : Option SymbolId),
    Mirrors (Alike ρ V U) (Alike ρ V U) id (populate k receiver members)
      (populateBy (.asking finish) () k receiver (members.map ρ.treeMember))
  | [], k, receiver => by
    rw [List.map_nil, populate, populateBy, populateBy]
    exact .pure id ()
  | .field name type mutable :: rest, k, receiver => by
    have hmember : ρ.treeMember (.field name type mutable) = .field name (ρ.expr type) mutable := rfl
    rw [List.map_cons, hmember, populate, populateBy, populateBy, ρ.span_expr]
    refine (resolveType_mirrors hfinish type (some k)).bind fun s => ?_
    refine (withBuilder_mirrors k false (addMember_works ⟨name, s, .field mutable⟩)).bind
      fun inserted => ?_
    split
    · exact populate_mirrors hfinish rest k receiver
    · exact (report_mirrors _ _).bind fun _ => populate_mirrors hfinish rest k receiver
  | .signature parameters result :: rest, k, receiver => by
    have hmember : ρ.treeMember (.signature parameters result) =
        .signature (parameters.map ρ.treeParameter) (ρ.expr result) :=
      congrArg (Tree.Member.signature · _) (Tree.mapParameters_eq ..)
    rw [List.map_cons, hmember, populate, populateBy, populateBy]
    refine (resolveParameters_mirrors hfinish parameters k []).bind_map fun ps => ?_
    refine (resolveType_mirrors hfinish result (some k)).bind fun s => ?_
    refine (withBuilder_mirrors k () (addSignature_works ⟨receiver, ps, s⟩)).bind fun _ => ?_
    exact populate_mirrors hfinish rest k receiver
  | .nested name value :: rest, k, receiver => by
    have hmember : ρ.treeMember (.nested name value) = .nested name (ρ.expr value) := rfl
    rw [List.map_cons, hmember, populate, populateBy, populateBy]
    exact populate_mirrors hfinish rest k receiver
termination_by members => sizeOf members

theorem resolveParameters_mirrors (hfinish : FinishesAlike ρ V U finish) :
    (parameters : List (Tree.Parameter Mark)) → ∀ (k : BuilderId) (names : List String),
    Mirrors (Alike ρ V U) (Alike ρ V U) (List.map ρ.parameter) (resolveParameters k names parameters)
      (resolveParametersBy (.asking finish) () k names (parameters.map ρ.treeParameter))
  | [], k, names => by
    rw [List.map_nil, resolveParameters, resolveParametersBy, resolveParametersBy]
    exact .pure _ []
  | .mk name type fallback :: rest, k, names => by
    have hparameter : ρ.treeParameter (.mk name type fallback) =
        .mk name (ρ.expr type) (fallback.map ρ.expr) :=
      congrArg (Tree.Parameter.mk _ _) (Tree.mapOption_eq ..)
    rw [List.map_cons, hparameter, resolveParameters, resolveParametersBy, resolveParametersBy, ρ.span_expr]
    refine (resolveType_mirrors hfinish type (some k)).bind fun s => ?_
    split
    · exact (report_mirrors _ _).bind fun _ => resolveParameters_mirrors hfinish rest k names
    · have hrest : Mirrors (Alike ρ V U) (Alike ρ V U) (List.map ρ.parameter)
          (do return ⟨name, s, fallback⟩ :: (← resolveParameters k (name :: names) rest))
          (do return ⟨name, s, fallback.map ρ.expr⟩ ::
            (← resolveParametersBy (.asking finish) () k (name :: names) (rest.map ρ.treeParameter))) :=
        (resolveParameters_mirrors hfinish rest k (name :: names)).bind_map fun ps => .pure _ (_ :: ps)
      cases fallback with
      | none => exact hrest
      | some e => exact (offer_mirrors e s).bind fun _ => hrest
termination_by parameters => sizeOf parameters

theorem populateNested_mirrors (hfinish : FinishesAlike ρ V U finish)
    (members : List (Tree.Member Mark)) (plans : List Plan) :
    Mirrors (Alike ρ V U) (Alike ρ V U) id (populateNested members plans)
      (populateNestedBy (.asking finish) () (members.map ρ.treeMember) plans) := by
  match members with
  | [] =>
    rw [List.map_nil, populateNested, populateNestedBy, populateNestedBy]
    exact .pure id ()
  | m :: rest =>
    rw [List.map_cons]
    rcases m.nested_cases with ⟨name, note, inner, rfl⟩ | hother
    · have hinner : Tree.mapMembers ρ.mark inner = inner.map ρ.treeMember := Tree.mapMembers_eq ..
      rw [Renumbering.treeMember, Tree.Member.map, Tree.Node.map, hinner]
      rcases plans with _ | ⟨_ | ⟨_, child, inside⟩, plans⟩ <;>
        simp only [populateNested, populateNestedBy, populateNestedBy]
      · exact populateNested_mirrors hfinish rest []
      · exact populateNested_mirrors hfinish rest plans
      · refine (populate_mirrors hfinish inner child none).bind fun _ => ?_
        refine (populateNested_mirrors hfinish inner inside).bind fun _ => ?_
        exact populateNested_mirrors hfinish rest plans
    · have hother' : ∀ name note inner, ρ.treeMember m ≠ .nested name (.typeLiteral note inner) := by
        rcases m with _ | _ | ⟨_, value⟩
        · nofun
        · nofun
        · cases value <;> first | exact absurd rfl (hother _ _ _) | nofun
      rw [populateNested, populateNestedBy_skip hother, populateNestedBy_skip hother']
      exact populateNested_mirrors hfinish rest plans
termination_by sizeOf members

end

end Binder.Build
