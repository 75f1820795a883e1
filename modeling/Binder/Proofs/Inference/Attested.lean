import Binder.Proofs.Inference.Promise
import Binder.Proofs.Inference.Reading
import Binder.Proofs.Inference.Ruling

/-! What inference stands for. As long as nothing is reported, every symbol that a node has got comes of a
verdict about it, and every promise is kept. -/
namespace Binder.Inference.State

open Binder.Tree (Expr NodeId)

variable {V : List SymbolId} {D D' : Prop} {E F : List Expr} {P ts rest new : List Task}
  {s s' : State} {task : Task} {x y : SymbolId}

/-- A run that is under way, during which nothing but some nodes is inferred. -/
structure Attests (V : List SymbolId) (D : Prop) (E : List Expr) (P : List Task) (s : State)
    (ts : List Task) : Prop where
  ready : s.Ready V D ts
  provenance : s.Provenance E ts
  ruled : s.diagnostics = [] → ∃ R, s.Ruled E ts R
  kept : s.diagnostics = [] → ∀ {node next}, .pend node next ∈ P → s.Kept ts node next

theorem Attests.step (hD : D) (h : s.Attests V D E P (task :: rest))
    (hs : s.step task = .ok (new, s')) : s'.Attests V D E P (new ++ rest) := by
  have hready := h.ready
  have hupholds := hready.upholds_step hs
  have hbefore : s'.diagnostics = [] → s.diagnostics = [] := fun hclean =>
    List.prefix_nil.mp (hclean ▸ (advances_step hs).diagnostics)
  refine ⟨⟨?_, hready.linear.step hs, hready.alert.step hs⟩, h.provenance.step hs, fun hclean => ?_,
    fun hclean _ _ hP => ?_⟩
  · exact hready.tidy.keeps_step hready.linear.toDelivering hs
  · obtain ⟨R, hR⟩ := h.ruled (hbefore hclean)
    exact hR.step h.provenance hready.linear.toDelivering
      (Verdict.steady_of_settled hupholds.before hupholds.after hupholds.grows) (.inr hclean) hs
  · exact hready.kept hs hD hclean (h.kept (hbefore hclean) hP)

/-- Some nodes have been inferred as far as that is possible. If nothing was reported, their symbols come
of verdicts, and what some tasks have promised is kept. -/
structure Attested (D : Prop) (E : List Expr) (P : List Task) (s : State) : Prop where
  followed : s.Followed E
  ruled : D → s.diagnostics = [] → ∃ R, s.Ruled E [] R
  kept : D → s.diagnostics = [] → ∀ {node next}, .pend node next ∈ P → s.Kept [] node next

namespace Attested

variable {e : Expr}

theorem initial (g : TypeGraph) (scope : Scope Declaration) : (State.initial g scope).Attested D [] [] :=
  ⟨.initial g scope, fun _ _ => ⟨[], nofun, .refl _, rfl⟩, fun _ _ => nofun⟩

variable (h : s.Attested D E P)
include h

theorem run (hready : s.Ready V D ts)
    (hF : ∀ e ∈ F, ∀ x ∈ e.operands, x ∈ F) (htraced : ∀ task ∈ ts, s.Traced (E ++ F) task)
    (howed : ∀ n, Tree.count n F ≤ owed (.toNode n) ts) (hrecords : records ts = [])
    (hrun : s.run ts = (s', .ok ())) : s'.Attested D (E ++ F) (P ++ ts) := by
  have hfollowed := h.followed.run hF hready.linear htraced howed hrun
  have hattests : D → s'.Attests V D (E ++ F) (P ++ ts) [] := by
    intro hD
    refine run_keeps (Attests.step hD) s ts ⟨hready, ?_, fun hclean => ?_, fun hclean _ _ hP => ?_⟩ hrun
    · exact h.followed.provenance.widen (List.subset_append_left E F)
        hfollowed.provenance.toInferable htraced
    · obtain ⟨R, hR⟩ := h.ruled hD hclean
      refine ⟨R, fun r hr => ?_, hrecords ▸ hR.entries, hR.reports⟩
      exact ⟨List.mem_append_left F (hR.verdicts r hr).1, (hR.verdicts r hr).2⟩
    · rcases List.mem_append.mp hP with hold | hnew
      · exact (Upholds.refl hready.tidy.graph).kept (List.nil_subset ts) rfl rfl (h.kept hD hclean hold)
      · exact .inl hnew
  exact ⟨hfollowed, fun hD => (hattests hD).ruled, fun hD => (hattests hD).kept⟩

/-- A graph that grows between two runs changes no verdict and breaks no promise. -/
theorem upheld (hupholds : Upholds V D s s') (hD : D' → D)
    (hscope : s'.scope = s.scope) (htyped : s'.typed = s.typed)
    (hdiagnostics : s'.diagnostics = s.diagnostics) (hwaiting : s'.waiting = s.waiting)
    (hblocked : s'.blocked = s.blocked) (hrecords : records ts = []) :
    (D' → s'.diagnostics = [] → ∃ R, s'.Ruled E ts R) ∧
    (D' → s'.diagnostics = [] → ∀ {node next}, .pend node next ∈ P → s'.Kept ts node next) := by
  rw [hdiagnostics]
  refine ⟨fun hD' hclean => ?_, fun hD' hclean _ _ hP => ?_⟩
  · obtain ⟨R, hR⟩ := h.ruled (hD hD') hclean
    refine ⟨R, fun r hr => ?_, htyped ▸ hrecords ▸ hR.entries, hdiagnostics.trans hR.reports⟩
    obtain ⟨hmem, hverdict⟩ := hR.verdicts r hr
    exact ⟨hmem, verdict?_mono ⟨hupholds.typed, hupholds.grows⟩ hscope
      (Verdict.steady_of_settled hupholds.before hupholds.after hupholds.grows) hmem hverdict⟩
  · exact hupholds.kept (List.nil_subset ts) hwaiting hblocked (h.kept (hD hD') hclean hP)

theorem unify (hready : s.Ready V D []) (hx : s.Sound V D x)
    (hy : s.Sound V D y) {unified : Bool} (hu : Inference.unify s x y = (s', .ok unified)) :
    s'.Attested D E P := by
  have hfollowed := h.followed.unify hu
  obtain ⟨s₁, hu₁, hrun⟩ := exists_of_unify_ok hu
  have hsettling := hready.settling hx hy hu₁
  have hprovenance := h.followed.provenance.settling hu₁
  have hupholds := (upholds_unify hready.tidy hx hy hu₁).1
  have hattests : D → s'.Attests V D E P [] := by
    intro hD
    obtain ⟨graph, groups, -, rfl⟩ := unify_eq hu₁
    obtain ⟨hruled, hkept⟩ := h.upheld hupholds id rfl rfl rfl rfl rfl
      (rfl : records [.settle] = [])
    exact run_keeps (Attests.step hD) _ _ ⟨hsettling, hprovenance, hruled hD, hkept hD⟩ hrun
  exact ⟨hfollowed, fun hD => (hattests hD).ruled, fun hD => (hattests hD).kept⟩

theorem verdict?_eq (hD : D) (hclean : s.diagnostics = []) (he : e ∈ E)
    (htyped : s.typeOf? e.id = some x) : s.verdict? e = some ⟨x, none⟩ := by
  obtain ⟨R, hR⟩ := h.ruled hD hclean
  have hsymbol := h.followed.typeOf?_eq hR he
  rw [htyped] at hsymbol
  obtain ⟨v, hv, rfl⟩ := Option.map_eq_some_iff.mp hsymbol.symm
  rw [hv, ← h.followed.fault_eq_none hR hclean he hv]

theorem of_reading? (hD : D) (hclean : s.diagnostics = []) (he : e ∈ E)
    {v : Verdict} (hv : reading? s.graph s.scope e = some v) :
    s.typeOf? e.id = some v.symbol ∧ v.fault = none := by
  obtain ⟨R, hR⟩ := h.ruled hD hclean
  have htyped : ∀ x ∈ E, s.typeOf? x.id = (s.verdict? x).map Verdict.symbol :=
    fun x hx => h.followed.typeOf?_eq hR hx
  rw [reading?_eq_verdict? h.followed.provenance.operands htyped e he] at hv
  refine ⟨?_, h.followed.fault_eq_none hR hclean he hv⟩
  rw [htyped e he, hv, Option.map_some]

end Attested
end Binder.Inference.State
