import Binder.Proofs.Module.Attesting
import Binder.Proofs.TypeGraph.Pairing

/-! What the graph of a module tells about its expressions once everything is inferred. If nothing was
reported, nothing that can be read off the graph is at fault. Values have the types that can be read
off their initialisers, and fallbacks those that they were compared with. Readings depend on the
expressions without their notes only. -/
namespace Binder

open Binder.Tree (Expr Node eraseAll)
open Inference (Task reading? readings?)

namespace Tree

variable {α : Type} {x : Node α}

theorem operands_erase (e : Node α) : e.erase.operands = e.operands.map Node.erase := by
  cases e <;> simp [Node.erase, Node.operands, eraseAll_eq]

theorem reached_erase (e : Node α) : e.erase.reached = e.reached.map Node.erase := by
  induction e using operands_induction with
  | h e ih =>
    rw [reached_eq, operands_erase, reached_eq e, List.map_cons, List.map_flatMap, List.flatMap_map]
    exact congrArg (e.erase :: ·) (List.flatMap_congr ih)

theorem exists_mem_reached {e e' x' : Expr} (h : e'.erase = e.erase) (hx' : x' ∈ e'.reached) :
    ∃ x ∈ e.reached, x'.erase = x.erase := by
  have hmem : x'.erase ∈ e'.erase.reached := by
    rw [reached_erase]
    exact List.mem_map_of_mem hx'
  rw [h, reached_erase] at hmem
  obtain ⟨x, hx, heq⟩ := List.mem_map.mp hmem
  exact ⟨x, hx, heq.symm⟩

theorem argumentName?_erase (e : Node α) : e.erase.argumentName? = e.argumentName? := by
  cases e <;> rfl

end Tree

namespace Inference

variable {α : Type} {g : TypeGraph} {scope : Scope Declaration}

mutual

/-- Notes do not matter to what can be read off a graph. -/
theorem reading?_erase : (e : Node α) → reading? g scope e.erase = reading? g scope e
  | .literal .. | .ident .. | .sequence .. | .definition .. | .typeLiteral .. | .arrayType ..
  | .referenceType .. | .extension .. => by simp [Node.erase, reading?]
  | .selection _ target _ => by simp only [Node.erase, reading?, reading?_erase target]
  | .call _ target arguments => by
    have hnames : (eraseAll arguments).map Node.argumentName? = arguments.map Node.argumentName? := by
      rw [Tree.eraseAll_eq, List.map_map]
      exact List.map_congr_left fun e _ => Tree.argumentName?_erase e
    simp only [Node.erase, reading?, reading?_erase target, readings?_erase arguments, hnames]
  | .namedArgument _ _ value => by simp only [Node.erase, reading?, reading?_erase value]

theorem readings?_erase : (es : List (Node α)) → readings? g scope (eraseAll es) = readings? g scope es
  | [] => rfl
  | e :: rest => by simp only [eraseAll, readings?, reading?_erase e, readings?_erase rest]

end

theorem reading?_eq_of_erase_eq {e e' : Expr} (h : e'.erase = e.erase) :
    reading? g scope e' = reading? g scope e := by
  rw [← reading?_erase e', h, reading?_erase]

end Inference

namespace Context.Silent

variable {m : Context} {s : Inference.State} {e x : Expr} {v : ModuleValue} {w : Inference.Verdict}

theorem fault_eq_none (h : m.Silent s) (he : Task.infer e ∈ m.tasks) (hx : x ∈ e.reached)
    (hw : reading? s.graph s.scope x = some w) : w.fault = none :=
  (h.attested.of_reading? h.clean h.reported (h.mem_inferred he hx) hw).2

theorem typeOf?_eq (h : m.Silent s) (he : Task.infer e ∈ m.tasks)
    (hw : reading? s.graph s.scope e = some w) : s.typeOf? e.id = some w.symbol :=
  (h.attested.of_reading? h.clean h.reported (h.mem_inferred he (Tree.mem_reached_self e)) hw).1

theorem tied (h : m.Silent s) (hg : s.graph.Comparable) (hv : v ∈ m.values)
    (he : v.definition.value = some e) (hw : reading? s.graph s.scope e = some w) :
    s.graph.Tied v.member.type w.symbol := by
  obtain ⟨hinfer, hpend⟩ := infer_mem_of_value hv he
  rcases (h.kept hpend).linked h.concludes.ready.alert (h.typeOf?_eq hinfer hw) with
    ⟨group, hgroup, ha, hb⟩ | hsame
  · have heq := h.concludes.ready.tidy.uniform group hgroup _ ha _ hb
    cases hbound : s.graph.bound? v.member.type with
    | none => exact .inl ⟨hbound, heq.symm.trans hbound⟩
    | some t => exact .inr ⟨t, t, hbound, heq.symm.trans hbound, hg.refl hbound⟩
  · exact .of_sameUpToSize hg hsame

theorem expected (h : m.Silent s) {f : Expr × SymbolId} (hf : f ∈ m.fallbacks)
    (hw : reading? s.graph s.scope f.1 = some w) {u : TypeId} (hu : s.graph.bound? w.symbol = some u) :
    s.graph.sameType f.2 (s.graph.symbolOf u) = true := by
  obtain ⟨hinfer, -⟩ := infer_mem_of_fallback hf
  have hresolved : s.resolved? f.1.id = some u := by
    rw [Inference.State.resolved?, h.typeOf?_eq hinfer hw, Option.bind_some, hu]
  exact (h.compared hf hresolved).2.2

end Context.Silent
end Binder
