import Binder.Proofs.Inference.Tidy

/-! Runs of inference that come to a good end. A state is ready for its tasks if it is tidy, if no node
is owed a second symbol, and if nobody waits for what is there already. Then no step fails, and the
state is ready again when all tasks are done. -/
namespace Binder.Inference

open Binder.Tree (Expr Mark NodeId)

namespace State

variable {V : List SymbolId} {D : Prop} {s s' : State} {task : Task} {ts rest new : List Task}
  {y x : SymbolId} {node : NodeId} {P : State → List Task → Prop}

/-- Whoever waits for a node waits for one without a symbol, and whoever was bound will be woken. -/
structure Alert (s : State) (ts : List Task) : Prop where
  untyped : ∀ w ∈ s.waiting, s.typeOf? w.1 = none
  settling : s.groups.settled ≠ [] → Task.settle ∈ ts

namespace Alert

theorem undisturbed (h : s.Alert (task :: rest)) (htask : task ≠ .settle)
    (hs : s.Undisturbed s') : s'.Alert (new ++ rest) where
  untyped := by
    intro w hw
    rw [hs.waiting] at hw
    rw [typeOf?, hs.typed]
    exact h.untyped w hw
  settling := by
    intro hne
    rw [hs.groups] at hne
    rcases List.mem_cons.mp (h.settling hne) with heq | hmem
    · exact absurd heq.symm htask
    · exact List.mem_append_right new hmem

theorem settling_rest (h : s.Alert (task :: rest)) (htask : task ≠ .settle)
    (hsettled : s'.groups.settled = s.groups.settled) (hne : s'.groups.settled ≠ []) :
    Task.settle ∈ new ++ rest := by
  rw [hsettled] at hne
  rcases List.mem_cons.mp (h.settling hne) with heq | hmem
  · exact absurd heq.symm htask
  · exact List.mem_append_right new hmem

theorem step (h : s.Alert (task :: rest)) (hs : s.step task = .ok (new, s')) :
    s'.Alert (new ++ rest) := by
  cases move_step hs with
  | infer => exact h.undisturbed (by simp) (undisturbed_infer ..)
  | bound => exact h.undisturbed (by simp) (undisturbed_onBound ..)
  | mismatch => exact h.undisturbed (by simp) (undisturbed_mismatch ..)
  | @record node symbol hnone =>
    refine ⟨?_, h.settling_rest (by simp) rfl⟩
    intro w hw
    obtain ⟨hmem, hne⟩ := List.mem_filter.mp hw
    have hother : (w.1 == node) = false := by simpa using hne
    simpa only [typeOf?, List.lookup_cons, hother] using h.untyped w hmem
  | wait hnone =>
    refine ⟨?_, h.settling_rest (by simp) rfl⟩
    intro w hw
    rcases List.mem_append.mp hw with hw | hw
    · exact h.untyped w hw
    · rw [List.mem_singleton.mp hw]
      exact hnone
  -- Whatever a unification binds, settling is the first thing to be done.
  | initialise | actUnify => exact ⟨h.untyped, fun _ => List.mem_cons_self⟩
  | actBound => exact ⟨h.untyped, fun _ => List.mem_cons_of_mem _ List.mem_cons_self⟩
  | settle => exact ⟨h.untyped, fun hne => absurd rfl hne⟩
  | rest hsettled => exact ⟨h.untyped, fun hne => absurd hsettled hne⟩
  | _ => exact ⟨h.untyped, h.settling_rest (by simp) rfl⟩

end Alert

/-- What a run of the inference of a module starts from, and what each of its steps keeps. -/
structure Ready (V : List SymbolId) (D : Prop) (s : State) (ts : List Task) : Prop where
  tidy : s.Tidy V D ts
  linear : s.Linear ts
  alert : s.Alert ts

/-- What was reported stays reported, what was bound stays bound, and neither symbols nor types are
made. -/
structure Advances (s s' : State) : Prop where
  diagnostics : s.diagnostics <+: s'.diagnostics
  grows : s.graph.Grows s'.graph
  types : s'.graph.types = s.graph.types
  names : s'.graph.names = s.graph.names
  scope : s'.scope = s.scope

theorem Advances.of_graph_eq (hgraph : s'.graph = s.graph) (hscope : s'.scope = s.scope)
    (hreported : s.diagnostics <+: s'.diagnostics) : s.Advances s' :=
  ⟨hreported, hgraph ▸ .refl _, by rw [hgraph], by rw [hgraph], hscope⟩

theorem Advances.refl (s : State) : s.Advances s := .of_graph_eq rfl rfl List.prefix_rfl

theorem Advances.trans {s'' : State} (h : s.Advances s') (h' : s'.Advances s'') :
    s.Advances s'' :=
  ⟨h.diagnostics.trans h'.diagnostics, h.grows.trans h'.grows, h'.types.trans h.types,
    h'.names.trans h.names, h'.scope.trans h.scope⟩

theorem Undisturbed.advances (h : s.Undisturbed s') : s.Advances s' :=
  .of_graph_eq h.graph h.scope h.diagnostics

theorem advances_spread {t : TypeId} {ss : List SymbolId} {graph : TypeGraph} {groups : Groups}
    (h : s.groups.spread s.graph t ss = (graph, groups)) :
    s.Advances { s with graph := graph, groups := groups } := by
  have hgraph : graph = (s.graph.bindAll t ss).1 := by
    rw [← Groups.fst_spread s.groups, h]
  subst hgraph
  exact ⟨List.prefix_rfl, TypeGraph.grows_bindAll t ss, TypeGraph.types_bindAll ss,
    TypeGraph.names_bindAll ss, rfl⟩

theorem advances_unify {unified : Bool} (h : s.unify x y = .ok (unified, s')) :
    s.Advances s' := by
  obtain ⟨graph, groups, hu, rfl⟩ := unify_eq h
  unfold Groups.unify at hu
  split at hu
  · cases hu
    exact .of_graph_eq rfl rfl List.prefix_rfl
  · cases hu
    exact .of_graph_eq rfl rfl List.prefix_rfl
  · exact advances_spread (Prod.mk.inj (Except.ok.inj hu)).2
  · cases hu
    exact .of_graph_eq rfl rfl List.prefix_rfl
  · cases hu

theorem advances_settleBound (s : State) (symbol : SymbolId) :
    s.Advances (s.settleBound symbol) := by
  unfold settleBound
  cases hb : s.graph.bound? symbol with
  | none =>
    simp only [Groups.settleBound, hb]
    exact .of_graph_eq rfl rfl List.prefix_rfl
  | some t =>
    simp only [Groups.settleBound, hb]
    exact advances_spread rfl

theorem advances_step (hs : s.step task = .ok (new, s')) : s.Advances s' := by
  cases move_step hs with
  | infer e => exact (undisturbed_infer s e).advances
  | bound next t => exact (undisturbed_onBound s next t).advances
  | mismatch expected found origin => exact (undisturbed_mismatch s expected found origin).advances
  | initialise hu | actUnify hu => exact advances_unify hu
  | actBound => exact advances_settleBound ..
  | _ => exact .of_graph_eq rfl rfl List.prefix_rfl

theorem typed_step (htask : ∀ node x, task ≠ .record node x) (hs : s.step task = .ok (new, s')) :
    s'.typed = s.typed := by
  cases move_step hs with
  | infer e => exact (undisturbed_infer s e).typed
  | bound next t => exact (undisturbed_onBound s next t).typed
  | mismatch expected found origin => exact (undisturbed_mismatch s expected found origin).typed
  | record => exact absurd rfl (htask _ _)
  | _ => rfl

theorem typeOf?_record {node' : NodeId} (hs : s.record node x = .ok (new, s'))
    (h : s.typeOf? node' = some y) :
    s'.typeOf? node' = some y := by
  unfold record at hs
  split at hs
  · cases hs
  next huntyped =>
    cases hs
    have hne : (node' == node) = false := by
      rw [beq_eq_false_iff_ne]
      rintro rfl
      simp [h] at huntyped
    simpa only [typeOf?, List.lookup_cons, hne] using h

theorem typeOf?_step (hs : s.step task = .ok (new, s'))
    (h : s.typeOf? node = some y) : s'.typeOf? node = some y := by
  by_cases hrecord : ∃ node x, task = .record node x
  · obtain ⟨node', x, rfl⟩ := hrecord
    exact typeOf?_record hs h
  · have htyped := typed_step (fun node x heq => hrecord ⟨node, x, heq⟩) hs
    rw [typeOf?, htyped]
    exact h

theorem Ready.step (h : s.Ready V D (task :: rest)) :
    ∃ new s', s.step task = .ok (new, s') ∧ s'.Ready V D (new ++ rest) := by
  obtain ⟨new, s', hs, htidy⟩ := h.tidy.step h.linear
  exact ⟨new, s', hs, htidy, h.linear.step hs, h.alert.step hs⟩

/-- If a property lets the next task succeed and holds again afterwards, the whole run succeeds. -/
theorem run_ok (hstep : ∀ {s task rest}, P s (task :: rest) →
      ∃ new s', s.step task = .ok (new, s') ∧ P s' (new ++ rest))
    (s : State) (ts : List Task) (h : P s ts) : ∃ s', s.run ts = (s', .ok ()) ∧ P s' [] := by
  fun_induction State.run s ts with
  | case1 s => exact ⟨s, rfl, h⟩
  | case2 s task rest new s' hs ih =>
    obtain ⟨new', s'', hs', h'⟩ := hstep h
    cases hs.symm.trans hs'
    exact ih h'
  | case3 s task rest e hs =>
    obtain ⟨new, s', hs', -⟩ := hstep h
    cases hs.symm.trans hs'

/-- If a property holds again after each step that succeeds, it holds after a run that does. -/
theorem run_keeps (hstep : ∀ {s task rest new s'}, P s (task :: rest) → s.step task = .ok (new, s') →
      P s' (new ++ rest))
    (s : State) (ts : List Task) (h : P s ts) (hrun : s.run ts = (s', .ok ())) : P s' [] := by
  fun_induction State.run s ts with
  | case1 s =>
    cases hrun
    exact h
  | case2 s task rest new s₁ hs ih => exact ih (hstep h hs) hrun
  | case3 s task rest e hs => cases hrun

/-- What every step keeps, a run keeps, however it ends. -/
theorem run_invariant {P : State → Prop}
    (hstep : ∀ {s task new s'}, P s → s.step task = .ok (new, s') → P s')
    (s : State) (ts : List Task) (h : P s) : P (s.run ts).1 := by
  fun_induction State.run s ts with
  | case1 s => exact h
  | case2 s task rest new s' hs ih => exact ih (hstep h hs)
  | case3 s task rest e hs => exact h

theorem Linear.run (h : s.Linear ts) (hrun : s.run ts = (s', .ok ())) :
    s'.Linear [] ∧ ∀ n, s'.tally n = owed (.toNode n) ts + s.tally n := by
  have hdone := run_keeps (P := fun s₁ ts₁ => s₁.Linear ts₁ ∧
    ∀ n, owed (.toNode n) ts₁ + s₁.tally n = owed (.toNode n) ts + s.tally n) ?_ s ts
    ⟨h, fun _ => rfl⟩ hrun
  · refine ⟨hdone.1, fun n => ?_⟩
    have hn := hdone.2 n
    rw [owed_nil] at hn
    omega
  · intro s₁ task rest new s₂ hP hs
    refine ⟨hP.1.step hs, fun n => ?_⟩
    have hn := hP.2 n
    have hpassed := tally_step n hP.1.toDelivering hs
    rw [owed_cons] at hn
    rw [owed_append]
    omega

/-- What comes of the tasks that are due in a ready state. -/
structure Completes (V : List SymbolId) (D : Prop) (s : State) (ts : List Task) (s' : State) :
    Prop where
  ready : s'.Ready V D []
  advances : s.Advances s'
  tally : ∀ n, s'.tally n = owed (.toNode n) ts + s.tally n

/-- A run from a ready state succeeds. -/
theorem Ready.run (h : s.Ready V D ts) :
    ∃ s', s.run ts = (s', .ok ()) ∧ Completes V D s ts s' := by
  have hrun := run_ok (P := fun s₁ ts₁ => s₁.Ready V D ts₁ ∧ s.Advances s₁) ?_ s ts ⟨h, .refl s⟩
  · obtain ⟨s', hs', hready, hadvances⟩ := hrun
    exact ⟨s', hs', hready, hadvances, (h.linear.run hs').2⟩
  · rintro s₁ task rest ⟨hready, hadvances⟩
    obtain ⟨new, s₂, hs, hready'⟩ := hready.step
    exact ⟨new, s₂, hs, hready', hadvances.trans (advances_step hs)⟩

end State
end Binder.Inference
