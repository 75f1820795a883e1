import Binder.Proofs.Inference.Promise
import Binder.Proofs.Module.Evaluation

/-! Types that are ascribed to values. What a value has when its ascription is looked at decides
whether it gets the ascribed type: it takes the type if it has none yet, and keeps its own otherwise,
with no report if the two differ. -/
namespace Binder

open Binder.Tree (Expr)
open Inference (Task)

namespace Context

variable {V : List SymbolId} {c c' i m : Context} {s : Inference.State} {x y : SymbolId}
  {rest bindings : List Expr}

/-- While a tree is bound, what is ascribed to a value denotes a symbol in a context. The values
before it are inferred by then. -/
def Ascribes (name : String) (root : Expr) (v : ModuleValue) (ascribed : SymbolId) (c : Context) :
    Prop :=
  ∃ i m before after a, (do Build.enter root; Build.furnish) (initial name) = .ok () i ∧
    i.values = before ++ v :: after ∧ v.definition.ascription = some a ∧
    before.forM Build.inferValue i = .ok () m ∧ Build.resolveType none a m = .ok ascribed c

/-- Two symbols are bound in a settled graph, so that their comparison has a definite outcome. -/
structure Definite (g : TypeGraph) (x y : SymbolId) (same : Prop) : Prop where
  settled : ∃ V D, g.Settled V D
  first : g.isBound x
  second : g.isBound y
  outcome : g.sameType x y = true ↔ same

theorem Definite.lasts {g g' : TypeGraph} {same : Prop} {rank : SymbolId → Nat}
    (h : Definite g x y same) (hg : g.Grows g') (hrank : g'.Ranked rank) :
    g'.sameType x y = true ↔ same := by
  obtain ⟨V, D, hsettled⟩ := h.settled
  rw [hsettled.sameType_eq hrank hg h.first h.second]
  exact h.outcome

theorem Valuing.definite (h : c.Valuing V rest) (hx : x ∈ V) (hy : c.Known V y)
    {unified : Bool} (hu : Inference.unify c.inference x y = (s, .ok unified)) :
    Definite s.graph x y (c.graph.bound? x = none ∨ c.graph.sameType x y = true) := by
  obtain ⟨unified', s₁, s', hfirst, hlater, hu', hadvances, hdone⟩ := h.unify hx hy
  obtain ⟨rfl, -⟩ := Prod.mk.inj (hu.symm.trans hu')
  have hsettled := hdone.ready.tidy.graph
  have hbound : c.inference.graph.isBound y := h.resolvable.toStanding.isBound hy
  have hy' : s.graph.isBound y := hadvances.grows.isBound hbound
  cases hb : c.inference.graph.bound? x with
  | some t =>
    have hxb : c.inference.graph.isBound x := TypeGraph.isBound_iff.mpr ⟨t, hb⟩
    refine ⟨⟨_, _, hsettled⟩, hadvances.grows.isBound hxb, hy', ?_⟩
    rw [h.ready.tidy.graph.sameType_eq hsettled.ranked hadvances.grows hxb hbound]
    have hne : c.graph.bound? x ≠ none := by
      intro hnone
      cases hb.symm.trans hnone
    exact ⟨.inr, fun hcase => hcase.resolve_left hne⟩
  | none =>
    obtain ⟨t, ht⟩ := TypeGraph.isBound_iff.mp hbound
    have htakes := Inference.State.Tidy.unify_eq_take hb ht
    obtain ⟨-, rfl⟩ := Prod.mk.inj (Except.ok.inj (hfirst.symm.trans htakes))
    obtain ⟨hxt, hyt⟩ := Inference.State.linked_take h.ready.tidy hx hb ht
    have hxt' := hlater.grows.bound hxt
    refine ⟨⟨_, _, hsettled⟩, TypeGraph.isBound_iff.mpr ⟨t, hxt'⟩, hy', ?_⟩
    rw [TypeGraph.sameType_iff hsettled.ranked]
    exact ⟨fun _ => .inl hb, fun _ => .type hxt' (hlater.grows.bound hyt)⟩

end Context

namespace Build

open Context

variable {V : List SymbolId} {c i m : Context} {v : ModuleValue} {a : Expr}
  {before after : List ModuleValue} {rest bindings : List Expr}

/-- The comparison of a value with what is ascribed to it. -/
def Compares (i : Context) (before : List ModuleValue) (v : ModuleValue) (a : Expr)
    (g : TypeGraph) : Prop :=
  ∃ m ascribed c, before.forM inferValue i = .ok () m ∧ resolveType none a m = .ok ascribed c ∧
    Definite g v.member.type ascribed
      (c.graph.bound? v.member.type = none ∨ c.graph.sameType v.member.type ascribed = true)

theorem inferValue_compares (hv : v.member.type ∈ V) (ha : v.definition.ascription = some a)
    (h : m.Valuing V (v.definition.nodes ++ rest))
    (hbefore : before.forM inferValue i = .ok () m) :
    Ends (inferValue v) m fun _ m' => m'.Valuing V rest ∧
      ∃ g, Compares i before v a g ∧ g.Grows m'.graph := by
  apply (inferValue_ends hv h).mono
  rintro _ _ ⟨b, s, hserved, rfl⟩
  refine ⟨hserved.valuing, ?_⟩
  obtain ⟨hascribed, -, -, hadvances, -⟩ := hserved
  cases hascribed with
  | bare hnone => cases hnone.symm.trans ha
  | ascribed ha' hresolve _ hknown hvaluing hu _ _ =>
    cases ha.symm.trans ha'
    exact ⟨_, ⟨m, _, _, hbefore, hresolve, hvaluing.definite hv hknown hu⟩, hadvances.grows⟩

theorem forM_inferValue_compares (hvalues : i.values = before ++ v :: after)
    (ha : v.definition.ascription = some a) (h : i.Furnished bindings)
    (honce : ∀ n, Tree.count n (Tree.preorderOf bindings) ≤ 1) :
    Ends (i.values.forM inferValue) i fun _ m => ∃ g, Compares i before v a g ∧
      g.Grows m.graph := by
  have hV : ∀ w ∈ i.values, w.member.type ∈ i.valueSymbols := fun w hw => List.mem_map_of_mem hw
  have hvaluing := h.valuing honce
  rw [hvalues] at hV hvaluing ⊢
  rw [List.map_append, List.map_cons, List.flatMap_append, List.flatMap_cons, List.append_assoc,
    List.append_assoc] at hvaluing
  have hsplit : (before ++ v :: after).forM inferValue = (do
      before.forM inferValue
      inferValue v
      after.forM inferValue) := by
    simp only [List.forM_eq_forM, List.forM_append, List.forM_cons]
  rw [hsplit]
  apply Ends.bind
  apply (forM_inferValue_infers before (fun w hw => hV w (by simp [hw])) hvaluing).keep.mono
  rintro _ m ⟨hbefore, hvaluing₁, -, -⟩
  apply Ends.bind
  apply (inferValue_compares (hV v (by simp)) ha hvaluing₁ hbefore).mono
  rintro _ m₁ ⟨hvaluing₂, g, hcompares, hgrows⟩
  apply (forM_inferValue_infers after (fun w hw => hV w (by simp [hw])) hvaluing₂).mono
  rintro _ m₂ ⟨-, hinfers, -⟩
  exact ⟨g, hcompares, hgrows.trans hinfers.graph⟩

end Build

namespace Context

/-- When a tree from a document is bound, whatever is ascribed to a value is resolved at some time.
The value ends up with the type exactly if it had no type or this one at that time. -/
theorem ascription_kept_iff {d : Document} {k k' : Nat} {root : Expr}
    (hroot : d.lower k = .ok root k') {name : String} {c : Context}
    (hc : c = ((initial name).build root).1) {v : ModuleValue} (hv : v ∈ c.values)
    (ha : v.definition.ascription.isSome) :
    (∃ ascribed m, Ascribes name root v ascribed m) ∧
    ∀ ascribed m, Ascribes name root v ascribed m →
      (c.graph.sameType v.member.type ascribed = true ↔
        m.graph.bound? v.member.type = none ∨ m.graph.sameType v.member.type ascribed = true) := by
  obtain ⟨i, m, s, hdone⟩ := exists_outcome_of_eq hroot hc
  have hcompares : ∀ {before after a}, i.values = before ++ v :: after →
      v.definition.ascription = some a →
      ∃ g, Build.Compares i before v a g ∧ g.Grows m.graph := fun hvalues ha =>
    (Build.forM_inferValue_compares hvalues ha hdone.furnished hdone.once).of_eq hdone.valued
  constructor
  · rw [hdone.built.values, hdone.infers.values] at hv
    obtain ⟨before, after, hvalues⟩ := List.append_of_mem hv
    obtain ⟨a, ha⟩ := Option.isSome_iff_exists.mp ha
    obtain ⟨g, ⟨m', ascribed, c', hbefore, hresolve, -⟩, -⟩ := hcompares hvalues ha
    exact ⟨ascribed, c', i, m', before, after, a, hdone.furnishes, hvalues, ha, hbefore, hresolve⟩
  · rintro ascribed c' ⟨i', m', before, after, a, hfurnish', hvalues, ha, hbefore, hresolve⟩
    cases hdone.furnishes.symm.trans hfurnish'
    obtain ⟨g, ⟨m₁, ascribed₁, c₁, hbefore₁, hresolve₁, hdefinite⟩, hgrows⟩ :=
      hcompares hvalues ha
    cases hbefore.symm.trans hbefore₁
    cases hresolve.symm.trans hresolve₁
    obtain ⟨rank, hrank⟩ := hdone.built.ranked hdone.concludes.ready
    have hlast : g.Grows c.graph :=
      (hgrows.trans hdone.concludes.advances.grows).trans hdone.built.grows
    exact hdefinite.lasts hlast hrank

/-- A number that is initialised with a text that follows it. -/
def clash : Document where
  bindings := [
    .definition none false "number" (some (.ident none "Int")) (some (.ident none "text")),
    .definition none false "text" (some (.ident none "String")) none]

def clashRoot : Expr := clash.root

/-- Nothing is reported although the text does not end up as one. -/
theorem ascription_kept_iff_clash :
    clash.lower 0 = .ok clashRoot 6 ∧
    ∃ c, c = ((initial "main").build clashRoot).1 ∧ c.diagnostics = [] ∧
      ∃ v ∈ c.values, v.member.name = "text" ∧ v.definition.ascription.isSome ∧
        c.graph.sameType v.member.type Builtin.string.symbol = false ∧
        (∃ ascribed m, Ascribes "main" clashRoot v ascribed m) ∧
        ∀ ascribed m, Ascribes "main" clashRoot v ascribed m →
          (c.graph.sameType v.member.type ascribed = true ↔
            m.graph.bound? v.member.type = none ∨
              m.graph.sameType v.member.type ascribed = true) := by
  have hlower : clash.lower 0 = .ok clashRoot 6 := rfl
  obtain ⟨c, hc⟩ : ∃ c, c = ((initial "main").build clashRoot).1 := ⟨_, rfl⟩
  have hfinal : c.diagnostics.isEmpty = true ∧
      c.graph.sameType ⟨30⟩ Builtin.string.symbol = false ∧
      ("text", (⟨30⟩ : SymbolId), true) ∈ c.values.map fun v =>
        (v.member.name, v.member.type, v.definition.ascription.isSome) := by
    rw [hc, Build.build_eq_evaluate]
    decide +kernel
  obtain ⟨hclean, hdiffers, hmem⟩ := hfinal
  obtain ⟨v, hv, hvalue⟩ := List.mem_map.mp hmem
  obtain ⟨hname, htype, hascription⟩ : v.member.name = "text" ∧ v.member.type = ⟨30⟩ ∧
      v.definition.ascription.isSome = true := by simpa using hvalue
  rw [← htype] at hdiffers
  exact ⟨hlower, c, hc, List.isEmpty_iff.mp hclean, v, hv, hname, hascription, hdiffers,
    ascription_kept_iff hlower hc hv hascription⟩

end Context
end Binder
