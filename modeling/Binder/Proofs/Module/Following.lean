import Binder.Proofs.Inference.Reflection
import Binder.Proofs.Module.Turns
import Binder.Proofs.Module.Unresolved

/-! Builds that follow a model. If the types that are ascribed to values are tied in the model to those of
the values, and the model holds a type like each type that the build makes, then no pass leads out of
the model: neither the inference of a value, nor that of what is left once the values are inferred. -/
namespace Binder

open Binder.Tree (Expr)
open Inference (Task Model)
open TypeGraph (Paired)

namespace Inference

variable {M : Model} {V : List SymbolId} {E : List Expr} {s : State} {g g' : TypeGraph}

/-- A graph of a run in which all types stand for types of the model. -/
structure Model.Fits (M : Model) (V : List SymbolId) (g : TypeGraph) : Prop where
  paired : Paired M.pairing V M.graph g
  sizeless : g.Sizeless
  plain : g.Plain

theorem Model.Fits.restrict (h : M.Fits V g') (hg : g.Grows g') : M.Fits V g where
  paired := h.paired.restrict hg
  sizeless hk := h.sizeless (hg.kind? hk)
  plain hd := h.plain (hg.defs hd)

namespace State.Follows

theorem initial (hE : Inferable E) (hfits : M.Fits V g) {scope : Scope Declaration}
    (hnames : ∀ name, M.Names (M.scope.find? name) (scope.find? name))
    (hunbound : ∀ x ∈ V, g.bound? x = none) : (State.initial g scope).Follows M V E where
  provenance := .initial hE g scope
  reflected :=
    { paired := hfits.paired
      sizeless := hfits.sizeless
      plain := hfits.plain
      names := hnames
      typed := nofun
      values := by
        intro x hx y u _ hu
        rw [show (State.initial g scope).graph = g from rfl, hunbound x hx] at hu
        cases hu
      groups := nofun
      waiting := nofun
      blocked := nofun
      clean := fun _ => rfl
      tasks := nofun }

theorem setGraph (h : s.Follows M V E) (hg : s.graph.Grows g)
    (hvalues : ∀ x ∈ V, g.bound? x = s.graph.bound? x) (hfits : M.Fits V g) :
    (s.setGraph g).Follows M V E where
  provenance := h.provenance.mono (.of_eq rfl hg rfl) rfl rfl rfl
  reflected :=
    { h.reflected with
      paired := hfits.paired
      sizeless := hfits.sizeless
      plain := hfits.plain
      names := h.reflected.names
      typed := h.reflected.typed
      values := by
        intro x hx y u hyx hu
        obtain ⟨t, ht, hlike⟩ := h.reflected.values x hx hyx ((hvalues x hx).symm.trans hu)
        exact ⟨t, ht, hlike.grows (.refl _) hg⟩
      tasks := nofun }

end State.Follows
end Inference

namespace Build

open Context

variable {M : Model} {V : List SymbolId} {E bindings rest : List Expr} {c b m : Context}
  {v : ModuleValue} {s : Inference.State}

theorem Served.follows (h : Served V rest v c b s) (hv : v.member.type ∈ V) (hM : M.Closed V)
    (hF : c.inference.Follows M V E)
    (hascribed : ∀ {a y r}, v.definition.ascription = some a → resolveType none a c = .ok y r →
      M.Fits V r.graph ∧ ∃ x z, M.pairing.symbol x v.member.type ∧ M.pairing.symbol z y ∧
        M.graph.Tied x z)
    (hvalue : ∀ {e}, v.definition.value = some e → e ∈ E ∧ M.initialises e v.member.type) :
    s.Follows M V E := by
  have hb : b.inference.Follows M V E := by
    cases h.ascribed with
    | bare => exact hF
    | @ascribed a y r _ _ ha hresolve hresolved hknown hvaluing hu _ _ =>
      obtain ⟨hfits, x, z, hx, hz, htied⟩ := hascribed ha hresolve
      have hF₁ : r.inference.Follows M V E := by
        rw [hresolved.resolves.inference]
        exact hF.setGraph hresolved.resolves.graph hresolved.resolves.values hfits
      have hbound : r.inference.graph.isBound y := hresolved.resolvable.toStanding.isBound hknown
      have hsound : r.inference.Sound V (r.diagnostics = []) y := ⟨.inr hbound, fun _ => hknown.2.2⟩
      exact hF₁.unify hM hvaluing.ready (hvaluing.ready.tidy.sound_value hv) hsound hx hz htied hu
  have htasks : ∀ task ∈ v.tasks,
      b.inference.Traced E task ∧ M.Serves E b.inference.graph task := by
    unfold ModuleValue.tasks
    cases he : v.definition.value with
    | none => exact nofun
    | some e =>
      obtain ⟨hmem, hinitialises⟩ := hvalue he
      exact List.forall_mem_cons.mpr ⟨⟨hmem, trivial⟩,
        List.forall_mem_singleton.mpr ⟨⟨e, hmem, rfl⟩, e, hmem, rfl, hinitialises⟩⟩
  exact hb.run hM h.ready (fun task ht => (htasks task ht).1) (fun task ht => (htasks task ht).2) h.run

theorem restTasks_follow (h : m.Appraised bindings) (hM : M.Closed m.valueSymbols)
    (hF : m.inference.Follows M m.valueSymbols E)
    (hfallbacks : ∀ f ∈ m.fallbacks, f.1 ∈ E ∧ M.expects f.1 f.2)
    (hexpressions : ∀ e ∈ m.expressions, e ∈ E) (hrun : m.inference.run m.restTasks = (s, .ok ())) :
    s.Follows M m.valueSymbols E := by
  have htasks : ∀ task ∈ m.restTasks,
      m.inference.Traced E task ∧ M.Serves E m.inference.graph task := by
    refine List.forall_mem_append.mpr ⟨fun task htask => ?_, fun task htask => ?_⟩
    · obtain ⟨f, hf, htask⟩ := List.mem_flatMap.mp htask
      obtain ⟨he, hexpects⟩ := hfallbacks f hf
      rcases List.mem_cons.mp htask with rfl | htask
      · exact ⟨he, trivial⟩
      · rw [List.mem_singleton.mp htask]
        exact ⟨⟨f.1, he, rfl, rfl, trivial⟩, f.1, he, rfl, hexpects⟩
    · obtain ⟨e, he, rfl⟩ := List.mem_map.mp htask
      exact ⟨hexpressions e he, trivial⟩
  exact hF.run hM h.ready_restTasks (fun task ht => (htasks task ht).1)
    (fun task ht => (htasks task ht).2) hrun

end Build

namespace Context

variable {M : Model} {E bindings : List Expr} {i f : Context}

theorem Values.follows (h : Values bindings i f) (hM : M.Closed i.valueSymbols)
    (hE : Inference.Inferable E) (hfits : M.Fits i.valueSymbols f.graph)
    (hnames : ∀ name, M.Names (M.scope.find? name) (i.rootScope.find? name))
    (hvalues : ∀ {v e}, v ∈ i.values → v.definition.value = some e →
      e ∈ E ∧ M.initialises e v.member.type)
    (hascribed : ∀ {v m a y r}, i.Turn v m → v.definition.ascription = some a →
      Build.resolveType none a m = .ok y r →
      ∃ x z, M.pairing.symbol x v.member.type ∧ M.pairing.symbol z y ∧ M.graph.Tied x z) :
    f.inference.Follows M i.valueSymbols E := by
  have hstart : i.inference.Follows M i.valueSymbols E := by
    rw [h.furnished.inference]
    refine .initial hE (hfits.restrict ?_) hnames h.furnished.unbound
    exact (Values.run_infers (fun _ hv => hv) (h.furnished.valuing h.once) h.run).1.graph
  refine (h.induction (P := fun _ c => c.inference.Follows M i.valueSymbols E) hstart ?_).1
  intro before v after m r n _ hturn hat hrun _ hF
  obtain ⟨rest, hvaluing⟩ := hat.valuing
  have hv := Values.valueSymbol_mem hturn.mem
  obtain ⟨_, _, hserved, rfl⟩ := (Build.inferValue_ends hv hvaluing).of_eq hrun
  refine hserved.follows hv hM hF ?_ fun he => hvalues hturn.mem he
  intro a y r' ha hresolve
  cases (Readies.ascribed ha hresolve).unique hat.readies
  exact ⟨hfits.restrict hat.later.graph, hascribed hturn ha hresolve⟩

end Context
end Binder
