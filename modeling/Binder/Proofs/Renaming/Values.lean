import Binder.Proofs.Renaming.Filling

/-! Inferring the values of a module under other numbers. -/
namespace Binder

open Binder.Tree (Expr Mark)
open Inference (Task)

namespace Context

variable {V : List SymbolId} {c c₀ : Context} {rest : List Expr}

theorem Valuing.calm (h : c.Valuing V rest) (hold : c₀.Calm V [])
    (hbuilders : c.builders = c₀.builders) : c.Calm V [] := by
  have howners : c.owners [] = c₀.owners [] := by rw [owners, hbuilders, owners]
  refine ⟨h.resolvable.quiet, fun s hs => (h.resolvable.graph.values s hs).2,
    h.resolvable.graph.types, fun hcall _ ht => (h.ready.tidy.slots hcall ht).1, fun s hs => ⟨?_, ?_⟩,
    howners ▸ hold.distinct, hbuilders ▸ hold.named⟩
  · exact (hold.owned s (howners ▸ hs)).1
  · rw [owners, List.append_nil] at hs
    obtain ⟨b, hb, rfl⟩ := List.mem_map.mp hs
    obtain ⟨i, hi⟩ := List.mem_iff_getElem?.mp hb
    exact (h.resolvable.builder (i := i) (by simpa using hi)).2.2.2

/-- The contexts are the same but for numbers, and inference left builders as they were. -/
structure Inferred (ρ : Renumbering) (V : List SymbolId) (c c' : Context) : Prop where
  builders : ∃ c₀ : Context, c₀.Calm V [] ∧ c.builders = c₀.builders
  renamed : c.Renamed ρ c'

theorem Alike.inferred {ρ : Renumbering} {c' : Context} (h : Alike ρ V [] c c') : Inferred ρ V c c' :=
  ⟨⟨c, h.calm, rfl⟩, h.renamed⟩

end Context

namespace Build

open Context

variable {ρ : Renumbering} {V : List SymbolId} {finish : BuilderId → Build Unit} {α : Type}

theorem withInference_mirrors {f g : Inference.State → Inference.Outcome α}
    (h : ∀ {τ s s' s₁ a}, s.Renamed (ρ.retype τ) s' → f s = (s₁, .ok a) →
      ∃ s₁', g s' = (s₁', .ok a) ∧ s₁.Renamed (ρ.retype τ) s₁') :
    Mirrors (Inferred ρ V) (Inferred ρ V) id (withInference f) (withInference g) := by
  rintro c _ ⟨hbuilders, τ, s', hs, rfl⟩ a c₁ hp
  unfold withInference at hp
  split at hp
  next s₁ x hf =>
    cases hp
    obtain ⟨s₁', hg, hs₁⟩ := h hs hf
    exact ⟨_, withInference_of_ok hg, hbuilders, τ, s₁', hs₁, rfl⟩
  next => cases hp

theorem runs_mirrors (ts : List Task) {ts' : List Task} (hts : ∀ τ, ts' = ts.map (ρ.retype τ).task) :
    Mirrors (Inferred ρ V) (Inferred ρ V) id (runs ts) (runs ts') := by
  refine withInference_mirrors fun {τ} _ _ _ _ hs hrun => ?_
  rw [hts τ]
  exact hs.run hrun

theorem tasks_moduleValue (τ : TypeId ↪ TypeId) (v : ModuleValue) :
    (ρ.moduleValue v).tasks = v.tasks.map (ρ.retype τ).task := by
  have hvalue : (ρ.moduleValue v).definition.value = v.definition.value.map ρ.expr := rfl
  unfold ModuleValue.tasks
  rw [hvalue]
  cases v.definition.value with
  | none => rfl
  | some e =>
    simp only [Option.map_some, ρ.id_expr, ρ.span_expr]
    rfl

theorem inferFallback_mirrors (f : Expr × SymbolId) :
    Mirrors (Inferred ρ V) (Inferred ρ V) id (inferFallback f) (inferFallback (ρ.fallback f)) := by
  rw [inferFallback_eq, inferFallback_eq]
  refine runs_mirrors _ fun τ => ?_
  simp only [fallbackTasks, Renumbering.fallback, ρ.id_expr, ρ.span_expr]
  rfl

theorem inferRest_mirrors : Mirrors (Inferred ρ V) (Inferred ρ V) id inferRest inferRest := by
  refine .get_bind fun c c' hc => ?_
  have hfallbacks : c'.fallbacks = c.fallbacks.map ρ.fallback := by
    obtain ⟨-, τ, s', hs, rfl⟩ := hc
    rfl
  refine Mirrors.bind (S := Inferred ρ V) (.of_modify ?_) fun _ => ?_
  · rintro c _ ⟨hbuilders, τ, s', hs, rfl⟩
    exact ⟨hbuilders, τ, s', hs, rfl⟩
  refine (Mirrors.forM hfallbacks fun f _ => inferFallback_mirrors f).bind fun _ => ?_
  refine .get_bind fun c c' hc => ?_
  have hexpressions : c'.expressions = c.expressions.map ρ.expr := by
    obtain ⟨-, τ, s', hs, rfl⟩ := hc
    rfl
  refine Mirrors.bind (S := Inferred ρ V) (.of_modify ?_) fun _ => ?_
  · rintro c _ ⟨hbuilders, τ, s', hs, rfl⟩
    exact ⟨hbuilders, τ, s', hs, rfl⟩
  exact .forM hexpressions fun e _ => runs_mirrors [.infer e] fun _ => rfl

section Values

variable (hfinish : FinishesAlike ρ V [] finish)
include hfinish

theorem inferValue_mirrors (v : ModuleValue) :
    Mirrors (Alike ρ V []) (Inferred ρ V) id (inferValue v)
      (inferValueBy (.asking finish) (ρ.moduleValue v)) := by
  rw [inferValue, inferValueBy_eq, inferValueBy_eq]
  refine Mirrors.bind (S := Inferred ρ V) ?_ fun _ => runs_mirrors _ fun τ => tasks_moduleValue τ v
  unfold ascribeBy
  have hascription : (ρ.moduleValue v).definition.ascription = v.definition.ascription.map ρ.expr := rfl
  rw [hascription]
  cases v.definition.ascription with
  | none => exact fun c c' hc => Mirrors.pure id () hc.inferred
  | some ascription =>
    refine (resolveType_mirrors hfinish ascription none).bind fun s c c' hc => ?_
    have hunify : Mirrors (Inferred ρ V) (Inferred ρ V) id
        (withInference fun state => Inference.unify state v.member.type s)
        (withInference fun state => Inference.unify state v.member.type s) :=
      withInference_mirrors fun hs hrun => Inference.renamed_unify hs hrun
    exact (hunify.bind fun _ => .pure id ()) hc.inferred

theorem forM_inferValue_mirrors {c c' c₁ : Context} {rest : List Expr}
    (l : List ModuleValue) (hl : ∀ v ∈ l, v.member.type ∈ V)
    (h : c.Valuing V ((l.map ModuleValue.definition).flatMap Definition.nodes ++ rest))
    (hc : Alike ρ V [] c c') (hrun : l.forM inferValue c = .ok () c₁) :
    ∃ c₁', (l.map ρ.moduleValue).forM (inferValueBy (.asking finish)) c' = .ok () c₁' ∧
      Inferred ρ V c₁ c₁' := by
  induction l generalizing c c' with
  | nil =>
    cases hrun
    exact ⟨c', rfl, hc.inferred⟩
  | cons v l ih =>
    rw [List.map_cons, List.flatMap_cons, List.append_assoc] at h
    have hv := hl v List.mem_cons_self
    obtain ⟨_, c₂, hvalue, hrest⟩ := exists_of_bind_ok hrun
    obtain ⟨c₂', hvalue', ⟨c₀, hcalm, hbuilders⟩, hc₂⟩ := inferValue_mirrors hfinish v hc hvalue
    obtain ⟨_, _, hserved, rfl⟩ := (inferValue_ends hv h).of_eq hvalue
    obtain ⟨c₁', hrest', hc₁⟩ := ih (fun w hw => hl w (List.mem_cons_of_mem v hw)) hserved.valuing
      ⟨hserved.valuing.calm hcalm hbuilders, hc₂⟩ hrest
    exact ⟨c₁', (bind_of_ok hvalue').trans hrest', hc₁⟩

end Values

end Build
end Binder
