import Binder.Proofs.Renaming.Resolution

/-! Making the types of a module under other numbers. -/
namespace Binder

open Binder.Tree (Expr Mark)

namespace Build

open Context

def renameOpened (ρ : Renumbering) (o : BuilderId × List (Tree.Member Mark) × List Plan) :
    BuilderId × List (Tree.Member Mark) × List Plan :=
  (o.1, o.2.1.map ρ.treeMember, o.2.2)

variable {ρ : Renumbering} {V U : List SymbolId} {finish : BuilderId → Build Unit}

theorem mapM_openType_mirrors (todo : List DeclaredType) :
    Mirrors (Alike ρ V (todo.map fun d => d.entry.symbol)) (Alike ρ V []) (List.map (renameOpened ρ))
      (todo.mapM openType) ((todo.map ρ.declaredType).mapM openType) := by
  induction todo with
  | nil => exact .pure _ []
  | cons d todo ih =>
    rw [List.map_cons, List.map_cons, List.mapM_cons, List.mapM_cons]
    have hopen : Mirrors (Alike ρ V (d.entry.symbol :: todo.map fun d => d.entry.symbol))
        (Alike ρ V (todo.map fun d => d.entry.symbol)) (renameOpened ρ) (openType d)
        (openType (ρ.declaredType d)) :=
      (newBuilder_mirrors d.entry.symbol none none).bind fun k =>
        (declareNested_mirrors k d.members).bind fun plans => .pure _ (k, d.members, plans)
    exact hopen.bind_map fun o => ih.bind_map fun os => .pure _ (o :: os)

section Filling

variable (hfinish : FinishesAlike ρ V [] finish)
include hfinish

theorem fill_mirrors (k : BuilderId) (receiver : Option SymbolId) (members : List (Tree.Member Mark))
    (plans : List Plan) :
    Mirrors (Alike ρ V []) (Alike ρ V []) id
      (do populate k receiver members; populateNested members plans)
      (do
        populateBy (.asking finish) () k receiver (members.map ρ.treeMember)
        populateNestedBy (.asking finish) () (members.map ρ.treeMember) plans) :=
  (populate_mirrors hfinish members k receiver).bind fun _ =>
    populateNested_mirrors hfinish members plans

theorem extend_mirrors (x : Extension) :
    Mirrors (Alike ρ V []) (Alike ρ V []) id (extend x)
      (extendBy (.asking finish) (fun _ => ()) (ρ.extension x)) := by
  refine (resolveType_mirrors hfinish x.target none).bind fun target => ?_
  refine .get_bind fun c c' hc => ?_
  obtain ⟨τ, hg⟩ := hc.renamed.graph
  have hspan : (ρ.extension x).target.span = x.target.span := ρ.span_expr x.target
  rw [hg.isError, hc.renamed.builderOf?, hg.isBound, hg.symbolText, hspan]
  split
  · exact .pure id ()
  · cases c.builderOf? target with
    | none => exact report_mirrors _ _
    | some k =>
      cases c.graph.isBound target with
      | true => exact report_mirrors _ _
      | false =>
        exact (declareNested_mirrors k x.members).bind fun plans =>
          fill_mirrors hfinish k (some target) x.members plans

theorem extendTypes_mirrors :
    Mirrors (Alike ρ V []) (Alike ρ V []) id extendTypes
      (extendTypesBy (.asking finish) fun _ => ()) := by
  refine .get_bind fun c c' hc => ?_
  have hextensions : c'.extensions = c.extensions.map ρ.extension := by
    obtain ⟨-, τ, s', hs, rfl⟩ := hc
    rfl
  refine Mirrors.bind (.of_modify ?_) fun _ => .forM hextensions fun x _ => extend_mirrors hfinish x
  rintro c _ ⟨hcalm, τ, s', hs, rfl⟩
  exact ⟨hcalm.congr rfl rfl, τ, s', hs, rfl⟩

theorem makeTypes_mirrors {c c' c₁ : Context} (hc : Alike ρ V c.declaredSymbols c c')
    (hrun : makeTypes c = .ok () c₁) :
    ∃ c₁', makeTypesBy (.asking finish) c' = .ok () c₁' ∧ Alike ρ V [] c₁ c₁' := by
  have hdeclared : c'.declared = c.declared.map ρ.declaredType := by
    obtain ⟨-, τ, s', hs, rfl⟩ := hc
    rfl
  rw [makeTypes, makeTypesBy, get_bind] at hrun
  obtain ⟨opened, c₂, hopen, hrest⟩ := exists_of_bind_ok hrun
  obtain ⟨c₂', hopen', hc₂⟩ := mapM_openType_mirrors c.declared hc hopen
  have hids : (opened.map (renameOpened ρ)).map Prod.fst = (opened.map Prod.fst).map id := by
    rw [List.map_map, List.map_id]
    rfl
  have hfill : Mirrors (Alike ρ V []) (Alike ρ V []) id
      (opened.forM fun o => do
        populate o.1 none o.2.1
        populateNested o.2.1 o.2.2)
      ((opened.map (renameOpened ρ)).forM fun o => do
        populateBy (.asking finish) () o.1 none o.2.1
        populateNestedBy (.asking finish) () o.2.1 o.2.2) :=
    .forM rfl fun o _ => fill_mirrors hfinish o.1 none o.2.1 o.2.2
  obtain ⟨c₁', hrest', hc₁⟩ := (hfill.bind fun _ => (extendTypes_mirrors hfinish).bind fun _ =>
    Mirrors.forM hids fun k _ => hfinish k) hc₂ hrest
  refine ⟨c₁', ?_, hc₁⟩
  rw [makeTypesBy, get_bind, hdeclared]
  exact (bind_of_ok hopen').trans hrest'

end Filling

end Build
end Binder
