import Binder.Proofs.Inference.Attested
import Binder.Proofs.Module.Concluding

/-! What is inferred in a module. The nodes of initialisers, of fallbacks and of top-level expressions are
inferred as far as that is possible; if nothing is reported, their symbols come of verdicts, and values
and fallbacks have what was promised. -/
namespace Binder

open Binder.Tree (Expr)
open Inference (Task)

variable {next : Inference.WhenTyped}

/-- The nodes of the initialiser of a value that are inferred with it. -/
def ModuleValue.inferred (v : ModuleValue) : List Expr :=
  Tree.reachedOf v.definition.value.toList

/-- Some tasks start the inference of some nodes: they owe each of them a symbol, and what they let wait
waits for one of them. -/
structure Starting (ts : List Task) (nodes : List Expr) : Prop where
  operands : ∀ e ∈ nodes, ∀ x ∈ e.operands, x ∈ nodes
  counted : ∀ n, Tree.count n nodes ≤ Inference.owed (.toNode n) ts
  traced : ∀ {E}, nodes ⊆ E → ∀ (s : Inference.State), ∀ task ∈ ts, s.Traced E task
  records : Inference.records ts = []

namespace Starting

variable {ts : List Task}

theorem nil : Starting [] [] := ⟨nofun, fun _ => Nat.zero_le _, fun _ _ => nofun, rfl⟩

theorem infer (e : Expr) : Starting [.infer e] e.reached where
  operands _ hx _ hy := Tree.operand_mem_reached hy e hx
  counted n := by
    rw [Inference.owed_cons, Inference.owed_nil, Nat.add_zero, Task.charge,
      Inference.inferCharge_eq_count]
  traced hE _ task htask := by
    rw [List.mem_singleton.mp htask]
    exact hE (Tree.mem_reached_self e)
  records := rfl

theorem pend {e : Expr} (h : ∀ {E} (s : Inference.State), e ∈ E → s.Attends E e.id next) :
    Starting [.infer e, .pend e.id next] e.reached where
  operands := (infer e).operands
  counted n := ((infer e).counted n).trans (by simp only [Inference.owed_cons, Inference.owed_nil]; omega)
  traced hE s := List.forall_mem_cons.mpr ⟨(infer e).traced hE s _ List.mem_cons_self,
    List.forall_mem_singleton.mpr (h s (hE (Tree.mem_reached_self e)))⟩
  records := rfl

theorem fallback (f : Expr × SymbolId) : Starting (fallbackTasks f) f.1.reached :=
  pend fun _ he => ⟨f.1, he, rfl, rfl, trivial⟩

theorem value (v : ModuleValue) : Starting v.tasks v.inferred := by
  unfold ModuleValue.tasks ModuleValue.inferred
  cases v.definition.value with
  | none => exact nil
  | some e =>
    rw [Option.toList_some, Tree.reachedOf, Tree.reachedOf, List.append_nil]
    exact pend fun _ he => ⟨e, he, rfl⟩

theorem append {us : List Task} {xs ys : List Expr} (h : Starting ts xs) (h' : Starting us ys) :
    Starting (ts ++ us) (xs ++ ys) where
  operands := List.forall_mem_append.mpr
    ⟨fun e he x hx => List.mem_append_left ys (h.operands e he x hx),
      fun e he x hx => List.mem_append_right xs (h'.operands e he x hx)⟩
  counted n := by
    rw [Inference.owed_append, Tree.count_append]
    exact Nat.add_le_add (h.counted n) (h'.counted n)
  traced hE s := List.forall_mem_append.mpr
    ⟨h.traced (List.Subset.trans (List.subset_append_left xs ys) hE) s,
      h'.traced (List.Subset.trans (List.subset_append_right xs ys) hE) s⟩
  records := by rw [Inference.records_append, h.records, h'.records, List.append_nil]

theorem flatMap {α : Type} {tasks : α → List Task} {nodes : α → List Expr}
    (h : ∀ a, Starting (tasks a) (nodes a)) (l : List α) :
    Starting (l.flatMap tasks) (l.flatMap nodes) := by
  induction l with
  | nil => exact nil
  | cons a l ih => exact (h a).append ih

theorem attested {P : List Task} {nodes E : List Expr} {V : List SymbolId} {D : Prop}
    {s s' : Inference.State} (h : Starting ts nodes) (hE : s.Attested D E P) (hready : s.Ready V D ts)
    (hrun : s.run ts = (s', .ok ())) : s'.Attested D (E ++ nodes) (P ++ ts) :=
  hE.run hready h.operands (h.traced (List.subset_append_right E nodes) s) h.counted h.records hrun

end Starting

namespace Context

variable {V : List SymbolId} {E bindings : List Expr} {P : List Task} {c c' i m : Context}
  {s : Inference.State} {e : Expr}

/-- The nodes that are inferred in a module whose values are inferred: those of initialisers, of
fallbacks and of top-level expressions. -/
def inferred (c : Context) : List Expr :=
  c.values.flatMap ModuleValue.inferred ++ c.fallbacks.flatMap (fun f => f.1.reached) ++
    c.expressions.flatMap Tree.Node.reached

theorem Resolves.attested (h : Resolves V c c') (hready : c.inference.Ready V (c.diagnostics = []) [])
    (hready' : c'.inference.Ready V (c'.diagnostics = []) [])
    (hE : c.inference.Attested (c.diagnostics = []) E P) :
    c'.inference.Attested (c'.diagnostics = []) E P := by
  have hgroups : c'.inference.groups = c.inference.groups := by rw [h.inference]
  have hupholds : Inference.State.Upholds V (c.diagnostics = []) c.inference c'.inference :=
    ⟨hready.tidy.graph, ⟨_, hready'.tidy.graph.ranked⟩, h.graph, by rw [h.inference]; exact id,
      Inference.State.subset_of_groups_eq (congrArg _ hgroups)⟩
  obtain ⟨hruled, hkept⟩ := hE.upheld hupholds h.clean (by rw [h.inference])
    (by rw [h.inference]) (by rw [h.inference]) (by rw [h.inference]) (by rw [h.inference])
    (rfl : Inference.records [] = [])
  refine ⟨hE.followed.mono h.graph (by rw [h.inference]) fun w hw => ?_, hruled, hkept⟩
  have hw' : w ∈ c'.inference.blocked := by rwa [h.inference]
  exact (h.values w.1 (hready'.tidy.blocked w hw').1).trans (hE.followed.vigilant.unbound w hw)

end Context

namespace Build

open Context

variable {V : List SymbolId} {E rest : List Expr} {P : List Task} {c b : Context}
  {s : Inference.State} {v : ModuleValue}

theorem Served.attested (h : Served V rest v c b s) (hv : v.member.type ∈ V)
    (hready : c.inference.Ready V (c.diagnostics = []) [])
    (hE : c.inference.Attested (c.diagnostics = []) E P) :
    s.Attested (b.diagnostics = []) (E ++ v.inferred) (P ++ v.tasks) := by
  refine (Starting.value v).attested ?_ h.ready h.run
  cases h.ascribed with
  | bare => exact hE
  | @ascribed a y r _ _ _ _ hresolved hknown hvaluing hu =>
    have hbound : r.inference.graph.isBound y := hvaluing.resolvable.toStanding.isBound hknown
    exact (hresolved.resolves.attested hready hvaluing.ready hE).unify hvaluing.ready
      (hvaluing.ready.tidy.sound_value hv) ⟨.inr hbound, fun _ => hknown.2.2⟩ hu

end Build

namespace Context

variable {bindings : List Expr} {i m c : Context} {s : Inference.State} {e : Expr}

theorem starting_tasks (m : Context) : Starting m.tasks m.inferred := by
  rw [tasks, List.map_eq_flatMap]
  exact ((Starting.flatMap Starting.value _).append (Starting.flatMap Starting.fallback _)).append
    (Starting.flatMap Starting.infer _)

theorem mem_inferred (he : Task.infer e ∈ m.tasks) : e ∈ m.inferred :=
  m.starting_tasks.traced (List.Subset.refl _) m.inference _ he

/-- Whatever is inferred in a module is followed to the end. -/
theorem Completed.attested (h : Completed bindings i m s c) :
    s.Attested (m.diagnostics = []) m.inferred m.tasks := by
  have hstart : i.inference.Attested (i.diagnostics = []) [] [] := by
    rw [h.furnished.inference]
    exact .initial _ _
  obtain ⟨-, -, hvalues⟩ := (Build.forM_inferValue_ends (V := i.valueSymbols) (I := fun done c' =>
    c'.inference.Ready i.valueSymbols (c'.diagnostics = []) [] ∧
      c'.inference.Attested (c'.diagnostics = []) (done.flatMap ModuleValue.inferred)
        (done.flatMap ModuleValue.tasks)) i.values
    (fun v hv => List.mem_map_of_mem hv) (h.furnished.valuing h.once) ⟨h.furnished.ready, hstart⟩ (by
      rintro done v c b s rest hv hserved ⟨hready, hdone⟩
      refine ⟨hserved.valuing.ready, ?_⟩
      simpa using hserved.attested (List.mem_map_of_mem hv) hready hdone)).of_eq h.valued
  rw [← h.infers.values] at hvalues
  have hrest := (Starting.flatMap Starting.fallback m.fallbacks).append
    (Starting.flatMap Starting.infer m.expressions)
  rw [← List.map_eq_flatMap] at hrest
  rw [inferred, tasks, List.append_assoc, List.append_assoc]
  exact hrest.attested hvalues h.appraised.ready_restTasks h.run

/-- Everything in a module is inferred, and nothing was reported so far. -/
structure Silent (m : Context) (s : Inference.State) : Prop where
  concludes : m.Concludes s
  attested : s.Attested (m.diagnostics = []) m.inferred m.tasks
  clean : m.diagnostics = []
  reported : s.diagnostics = []

namespace Silent

variable {x : Expr} {v : ModuleValue} {f : Expr × SymbolId} {node : Tree.NodeId} {t : TypeId}

theorem infer_mem_of_value (hv : v ∈ m.values) (he : v.definition.value = some e) :
    Task.infer e ∈ m.tasks ∧ Task.pend e.id (.initialise v.member.type e.span) ∈ m.tasks := by
  have htasks : ∀ task ∈ v.tasks, task ∈ m.tasks := by
    intro task htask
    simp only [tasks, List.mem_append, List.mem_flatMap]
    exact .inl (.inl ⟨v, hv, htask⟩)
  rw [ModuleValue.tasks, he] at htasks
  exact ⟨htasks _ (by simp), htasks _ (by simp)⟩

theorem infer_mem_of_fallback (hf : f ∈ m.fallbacks) :
    Task.infer f.1 ∈ m.tasks ∧
      Task.pend f.1.id (.resolve f.1.span (.compare f.2 f.1.span)) ∈ m.tasks := by
  have htasks : ∀ task ∈ fallbackTasks f, task ∈ m.tasks := by
    intro task htask
    simp only [tasks, List.mem_append, List.mem_flatMap]
    exact .inl (.inr ⟨f, hf, htask⟩)
  exact ⟨htasks _ (by simp [fallbackTasks]), htasks _ (by simp [fallbackTasks])⟩

theorem infer_mem_of_expression (he : e ∈ m.expressions) : Task.infer e ∈ m.tasks := by
  simp only [tasks, List.mem_append, List.mem_map]
  exact .inr ⟨e, he, rfl⟩

theorem isErrorType_eq (h : m.Silent s) {symbol : SymbolId} (hsymbol : s.typeOf? node = some symbol)
    (ht : s.graph.bound? symbol = some t) :
    s.graph.isErrorType t = false := by
  have htidy := h.concludes.ready.tidy
  obtain ⟨l, l', htyped, -⟩ := List.lookup_eq_some_iff.mp hsymbol
  have hsound := htidy.typed (node, symbol) (by simp [htyped])
  exact (htidy.soundType_of_bound hsound ht).2 h.reported h.clean

theorem mem_inferred (h : m.Silent s) (he : Task.infer e ∈ m.tasks) (hx : x ∈ e.reached) :
    x ∈ m.inferred :=
  h.attested.followed.provenance.toInferable.reached e (Context.mem_inferred he) hx

theorem kept (h : m.Silent s) (hnext : Task.pend node next ∈ m.tasks) : s.Kept [] node next :=
  h.attested.kept h.clean h.reported hnext

theorem compared (h : m.Silent s) (hf : f ∈ m.fallbacks) (ht : s.resolved? f.1.id = some t) :
    s.graph.isBound f.2 ∧ s.graph.HasType t ∧
      s.graph.sameType f.2 (s.graph.symbolOf t) :=
  (h.kept (infer_mem_of_fallback hf).2).effect h.concludes.ready.alert
    h.attested.followed.vigilant.unbound ht

end Silent
end Context
end Binder
