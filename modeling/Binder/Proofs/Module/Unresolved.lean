import Binder.Proofs.Module.Attesting
import Binder.Proofs.Module.Evaluation
import Binder.Proofs.Module.Names
import Binder.Proofs.Module.Reporting

/-! What a build leaves open. Whatever was inferred and has no type in the end stands above an expression
that is reported as unresolved. Such an expression has the symbol of a value that could not be
inferred, and every value of that kind is reported once. -/
namespace Binder

open Binder.Tree (Expr Mark NodeId)
open Inference (Task)

namespace Span

variable {spans spans' : List Span}

theorem key_injective : Function.Injective key := by
  rintro ⟨length, ⟨line, character⟩, ⟨line', character'⟩⟩ ⟨l, ⟨a, b⟩, ⟨a', b'⟩⟩ h
  simp only [key, List.cons.injEq, UInt32.toNat_inj] at h
  obtain ⟨rfl, rfl, rfl, rfl, rfl, -⟩ := h
  rfl

theorem le_iff {s t : Span} : s.le t = true ↔ List.le s.key t.key := by
  rw [le, Bool.not_eq_true', decide_eq_false_iff_not]

instance : Std.Antisymm fun s t : Span => s.le t = true where
  antisymm _ _ h h' := key_injective (List.le_antisymm (le_iff.mp h) (le_iff.mp h'))

theorem pairwise_sort (spans : List Span) : (sort spans).Pairwise fun s t => s.le t = true := by
  apply List.pairwise_mergeSort
  · intro a b c hab hbc
    exact le_iff.mpr (List.le_trans (le_iff.mp hab) (le_iff.mp hbc))
  · intro a b
    rw [Bool.or_eq_true, le_iff, le_iff]
    exact List.le_total ..

theorem sort_eq_of_perm (h : spans'.Perm spans) :
    sort spans' = sort spans := by
  refine List.Perm.eq_of_pairwise' (pairwise_sort spans') (pairwise_sort spans) ?_
  exact (List.mergeSort_perm _ _).trans (h.trans (List.mergeSort_perm _ _).symm)

theorem sort_sublist (h : spans'.Sublist spans) :
    (sort spans').Sublist (sort spans) := by
  refine List.sublist_of_subperm_of_pairwise ?_ (pairwise_sort spans') (pairwise_sort spans)
  have hsubperm := (List.mergeSort_perm spans' le).subperm.trans h.subperm
  exact hsubperm.trans (List.mergeSort_perm spans le).symm.subperm

end Span

theorem Prompt.filter_cannotInfer {reported : List Diagnostic} (h : Prompt reported) (name : String) :
    reported.filter (fun d => d.fault = .cannotInfer name) = [] := by
  rw [List.filter_eq_nil_iff]
  intro d hd heq
  have hprompt := h d hd
  rw [of_decide_eq_true heq] at hprompt
  cases hprompt

namespace Build

open Context

/-- The passes of a build up to the point where its values are inferred. -/
def appraise (root : Expr) : Build Unit := do
  enter root
  furnish
  (← get).values.forM inferValue

theorem build_eq_appraise (name : String) (root : Expr) :
    build root (.initial name) = (do appraise root; inferRest; conclude) (.initial name) := by
  rw [build_of_unbound rfl]
  simp only [complete, appraise, inferAll, inferAllBy, inferRest, bind_assoc]

end Build

namespace Context

variable {name : String} {root : Expr} {i m c : Context} {s : Inference.State} {x : SymbolId}
  {v : ModuleValue}

theorem filter_name_eq {values : List ModuleValue} (h : (values.map fun v => v.member.name).Nodup)
    (hv : v ∈ values) :
    values.filter (fun w => w.member.name = v.member.name) = [v] := by
  induction values with
  | nil => cases hv
  | cons w values ih =>
    obtain ⟨hnew, hrest⟩ := List.nodup_cons.mp h
    rcases List.mem_cons.mp hv with rfl | hv
    · have hothers : ∀ w ∈ values, w.member.name ≠ v.member.name := by
        intro w hw heq
        exact hnew (List.mem_map.mpr ⟨w, hw, heq⟩)
      simpa using hothers
    · have hne : w.member.name ≠ v.member.name := by
        intro heq
        exact hnew (List.mem_map.mpr ⟨v, hv, heq.symm⟩)
      rw [List.filter_cons_of_neg (by simpa using hne), ih hrest hv]

namespace Outcome

variable (h : Outcome name root i m s c)
include h

theorem appraise_eq : Build.appraise root (.initial name) = .ok () m := by
  obtain ⟨_, c₁, henter, hfurnish⟩ := Build.exists_of_bind_ok (p := Build.enter root) h.furnishes
  refine (Build.bind_of_ok (p := Build.enter root) henter).trans ?_
  refine (Build.bind_of_ok (p := Build.furnish) hfurnish).trans ?_
  exact h.valued

theorem bound?_eq (hx : x ∈ m.valueSymbols) : c.graph.bound? x = s.graph.bound? x := by
  obtain ⟨name, d, hsymbol, -, -, hgraph⟩ := h.built.graph
  have hexists := (h.concludes.ready.tidy.graph.values x hx).2
  have hne : x ≠ d.symbol := by
    intro heq
    rw [heq, hsymbol] at hexists
    exact Nat.lt_irrefl _ hexists
  rw [hgraph, TypeGraph.bound?_newType, if_neg (fun hand => hne hand.1), TypeGraph.bound?_newSymbol]

theorem unresolved_mem_iff (span : Span) :
    ⟨span, .unresolvedType⟩ ∈ c.diagnostics ↔ ∃ w ∈ s.blocked, w.2.1 = span := by
  obtain ⟨early, faults, hearly, hfaults, heq⟩ := h.reports
  have hnot : ∀ {reported}, Prompt reported → ⟨span, .unresolvedType⟩ ∉ reported :=
    fun hprompt hmem => nomatch hprompt _ hmem
  rw [heq]
  simp only [List.mem_append, hnot hearly, hnot hfaults, List.mem_map, Span.sort]
  simp

theorem filter_cannotInfer (hv : v ∈ c.values) :
    c.diagnostics.filter (fun d => d.fault = .cannotInfer v.member.name) =
      if c.graph.isBound v.member.type then []
      else [⟨v.definition.node.span, .cannotInfer v.member.name⟩] := by
  obtain ⟨early, faults, hearly, hfaults, heq⟩ := h.reports
  rw [h.built.values] at hv
  have hbound : c.graph.isBound v.member.type = s.graph.isBound v.member.type := by
    rw [TypeGraph.isBound, TypeGraph.isBound, h.bound?_eq (List.mem_map_of_mem hv)]
  rw [heq, hbound]
  simp only [List.filter_append, hearly.filter_cannotInfer, hfaults.filter_cannotInfer]
  have hunresolved : ((Span.sort (s.blocked.map fun w => w.2.1)).map
      fun origin => (⟨origin, .unresolvedType⟩ : Diagnostic)).filter
      (fun d => d.fault = .cannotInfer v.member.name) = [] := by
    rw [List.filter_eq_nil_iff]
    intro d hd
    obtain ⟨origin, -, rfl⟩ := List.mem_map.mp hd
    simp
  have hname : (Build.uninferred m.values s.graph).filter (fun w => w.member.name = v.member.name) =
      if s.graph.isBound v.member.type then [] else [v] := by
    rw [Build.uninferred, List.filter_comm, filter_name_eq h.named.distinct hv]
    cases hb : s.graph.isBound v.member.type <;> simp [hb]
  have hfilter := congrArg (List.map fun w : ModuleValue =>
    (⟨w.definition.node.span, .cannotInfer w.member.name⟩ : Diagnostic)) hname
  rw [hunresolved, List.filter_map]
  simp only [List.nil_append, Function.comp_def, Fault.cannotInfer.injEq]
  rw [hfilter]
  split <;> rfl

end Outcome

/-- Expressions that stay without a type are never passed over in silence. Below each of them a build
reports an expression as unresolved whose symbol is unbound. Only such expressions are reported, and
their symbols are those of values. Every value without a type is reported once, and none that has
one. -/
theorem unresolved_never_silent {d : Document} {k k' : Nat} {root : Expr}
    (hroot : d.lower k = .ok root k') (name : String) :
    ∃ m c t, Build.appraise root (initial name) = .ok () m ∧
      (initial name).build root = (c, .ok t) ∧
      (∀ x ∈ m.inferred, c.inference.typeOf? x.id = none →
        ∃ y ∈ x.operands, ∃ z ∈ y.reached, ∃ symbol, c.inference.typeOf? z.id = some symbol ∧
          c.graph.bound? symbol = none ∧ ⟨z.span, .unresolvedType⟩ ∈ c.diagnostics) ∧
      (∀ span, ⟨span, .unresolvedType⟩ ∈ c.diagnostics →
        ∃ x ∈ m.inferred, x.span = span ∧ ∃ v ∈ c.values,
          c.inference.typeOf? x.id = some v.member.type ∧ c.graph.bound? v.member.type = none) ∧
      (∀ v ∈ c.values, c.diagnostics.filter (fun d => d.fault = .cannotInfer v.member.name) =
        if c.graph.isBound v.member.type then []
        else [⟨v.definition.node.span, .cannotInfer v.member.name⟩]) ∧
      ((∃ span, ⟨span, .unresolvedType⟩ ∈ c.diagnostics) →
        ∃ v ∈ c.values, ⟨v.definition.node.span, .cannotInfer v.member.name⟩ ∈ c.diagnostics) := by
  obtain ⟨c, t, hbuild, i, m, s, hdone⟩ := exists_outcome hroot name
  have hopen : ∀ w ∈ s.blocked, w.1 ∈ m.valueSymbols ∧ c.graph.bound? w.1 = none := by
    intro w hw
    have hvalue := (hdone.concludes.ready.tidy.blocked w hw).1
    exact ⟨hvalue, (hdone.bound?_eq hvalue).trans (hdone.attested.followed.vigilant.unbound w hw)⟩
  have hunresolved : ∀ span, ⟨span, .unresolvedType⟩ ∈ c.diagnostics →
      ∃ x ∈ m.inferred, x.span = span ∧ ∃ v ∈ c.values,
        c.inference.typeOf? x.id = some v.member.type ∧ c.graph.bound? v.member.type = none := by
    intro span hspan
    obtain ⟨w, hw, hwspan⟩ := (hdone.unresolved_mem_iff span).mp hspan
    obtain ⟨x, hx, htyped, hxspan, -⟩ := hdone.attested.followed.provenance.blocked w hw
    obtain ⟨hvalue, hnone⟩ := hopen w hw
    obtain ⟨v, hv, heq⟩ := List.mem_map.mp hvalue
    refine ⟨x, hx, hxspan.trans hwspan, v, hdone.built.values ▸ hv, ?_, ?_⟩
    · rw [hdone.typeOf?_eq, heq]
      exact htyped
    · rw [heq]
      exact hnone
  refine ⟨m, c, t, hdone.appraise_eq, hbuild, ?_, hunresolved, fun v hv => hdone.filter_cannotInfer hv, ?_⟩
  · intro x hx hnone
    rw [hdone.typeOf?_eq] at hnone
    obtain ⟨y, hy, z, hz, symbol, next, htyped, -, hblocked⟩ :=
      hdone.attested.followed.unresolved x hx hnone
    refine ⟨y, hy, z, hz, symbol, ?_, (hopen _ hblocked).2, ?_⟩
    · rw [hdone.typeOf?_eq]
      exact htyped
    · exact (hdone.unresolved_mem_iff z.span).mpr ⟨_, hblocked, rfl⟩
  · rintro ⟨span, hspan⟩
    obtain ⟨x, -, -, v, hv, -, hnone⟩ := hunresolved span hspan
    refine ⟨v, hv, ?_⟩
    have hfilter := hdone.filter_cannotInfer hv
    rw [TypeGraph.isBound, hnone, if_neg (by simp)] at hfilter
    have hmem : ⟨v.definition.node.span, .cannotInfer v.member.name⟩ ∈
        c.diagnostics.filter (fun d => d.fault = .cannotInfer v.member.name) := by
      rw [hfilter]
      exact List.mem_cons_self
    exact List.mem_of_mem_filter hmem

/-- A value that is selected from another one, of which nothing is known. -/
def dangling : Document where
  bindings := [
    .definition none false "length" none
      (some (.selection none (.ident (some ⟨4, ⟨0, 13⟩, ⟨0, 17⟩⟩) "word") "size")),
    .definition none false "word" none none]

def danglingRoot : Expr := dangling.root

theorem unresolved_never_silent_dangling :
    dangling.lower 0 = .ok danglingRoot 5 ∧
    ∃ c t, (initial "main").build danglingRoot = (c, .ok t) ∧
      ⟨⟨4, ⟨0, 13⟩, ⟨0, 17⟩⟩, .unresolvedType⟩ ∈ c.diagnostics ∧
      ∃ v ∈ c.values, ⟨v.definition.node.span, .cannotInfer v.member.name⟩ ∈ c.diagnostics := by
  have hlower : dangling.lower 0 = .ok danglingRoot 5 := rfl
  obtain ⟨m, c, t, -, hbuild, -, -, -, haccompanied⟩ := unresolved_never_silent hlower "main"
  have hspan : ⟨⟨4, ⟨0, 13⟩, ⟨0, 17⟩⟩, .unresolvedType⟩ ∈ c.diagnostics := by
    have hc : c = ((initial "main").build danglingRoot).1 := by rw [hbuild]
    rw [hc, Build.build_eq_evaluate]
    decide +kernel
  exact ⟨hlower, c, t, hbuild, hspan, haccompanied ⟨_, hspan⟩⟩

end Context
end Binder
