import Binder.Proofs.Inference.Ready

/-! Nobody sleeps through a binding. Whoever waits for a symbol waits for one that is unbound, or that
is queued as settled, or that is about to be woken. Once nothing is due, only unbound symbols are
waited for. -/
namespace Binder.Inference

open Binder.Tree (Expr Mark NodeId)

namespace State

variable {s s' : State} {task : Task} {ts rest new : List Task} {x y : SymbolId}

/-- A symbol that has been bound since is queued as settled, and nothing leaves the queue. -/
structure Queues (s s' : State) : Prop where
  settled : s.groups.settled ⊆ s'.groups.settled
  bound : ∀ {x t}, s'.graph.bound? x = some t → s.graph.bound? x = none → x ∈ s'.groups.settled

theorem Queues.of_graph_eq (hgraph : s'.graph = s.graph)
    (hsettled : s'.groups.settled = s.groups.settled) : s.Queues s' where
  settled := by
    rw [hsettled]
    exact List.Subset.refl _
  bound := by
    intro x t hbound hnone
    rw [hgraph, hnone] at hbound
    cases hbound

theorem queues_spread {t : TypeId} {ss : List SymbolId} {graph : TypeGraph} {groups : Groups}
    (h : s.groups.spread s.graph t ss = (graph, groups)) :
    s.Queues { s with graph := graph, groups := groups } := by
  obtain ⟨rfl, rfl⟩ := Prod.mk.inj h
  constructor
  · exact List.subset_append_left ..
  · intro x v hbound hnone
    simp only [TypeGraph.bound?_bindAll] at hbound
    split at hbound
    next hmem => exact List.mem_append_right _ ((TypeGraph.mem_bindAll ss).mpr hmem)
    next =>
      rw [hnone] at hbound
      cases hbound

theorem queues_unify {unified : Bool} (h : s.unify x y = .ok (unified, s')) : s.Queues s' := by
  obtain ⟨graph, groups, hu, rfl⟩ := unify_eq h
  unfold Groups.unify at hu
  split at hu
  · cases hu
    exact .of_graph_eq rfl rfl
  · cases hu
    exact .of_graph_eq rfl rfl
  · exact queues_spread (Prod.mk.inj (Except.ok.inj hu)).2
  · cases hu
    exact .of_graph_eq rfl (Groups.settled_join ..)
  · cases hu

theorem queues_settleBound (s : State) (symbol : SymbolId) : s.Queues (s.settleBound symbol) := by
  unfold settleBound
  cases hb : s.graph.bound? symbol with
  | none =>
    simp only [Groups.settleBound, hb]
    exact .of_graph_eq rfl rfl
  | some t =>
    simp only [Groups.settleBound, hb]
    exact queues_spread rfl

/-- Whoever waits for a symbol waits for one that is unbound, or that will be woken. -/
def Awake (s : State) (ts : List Task) : Prop :=
  ∀ w ∈ s.blocked, s.graph.bound? w.1 = none ∨ w.1 ∈ s.groups.settled ∨ Task.wake w.1 ∈ ts

namespace Awake

theorem mono (h : s.Awake ts) (hts : ∀ {x}, Task.wake x ∈ ts → Task.wake x ∈ rest) :
    s.Awake rest := by
  intro w hw
  rcases h w hw with hnone | hsettled | hwake
  · exact .inl hnone
  · exact .inr (.inl hsettled)
  · exact .inr (.inr (hts hwake))

theorem rest_of_ne (h : s.Awake (task :: rest)) (htask : ∀ x, task ≠ .wake x) :
    s.Awake (new ++ rest) := by
  apply h.mono
  intro x hx
  rcases List.mem_cons.mp hx with heq | hmem
  · exact absurd heq.symm (htask x)
  · exact List.mem_append_right new hmem

theorem queues (h : s.Awake ts) (hs : s.Queues s') (hblocked : s'.blocked = s.blocked) :
    s'.Awake ts := by
  intro w hw
  rw [hblocked] at hw
  rcases h w hw with hnone | hsettled | hwake
  · cases hb : s'.graph.bound? w.1 with
    | none => exact .inl rfl
    | some t => exact .inr (.inl (hs.bound hb hnone))
  · exact .inr (.inl (hs.settled hsettled))
  · exact .inr (.inr hwake)

theorem undisturbed (h : s.Awake ts) (hs : s.Undisturbed s') : s'.Awake ts :=
  h.queues (.of_graph_eq hs.graph (by rw [hs.groups])) hs.blocked

theorem step (h : s.Awake (task :: rest)) (hs : s.step task = .ok (new, s')) :
    s'.Awake (new ++ rest) := by
  have hrest : (∀ x, task ≠ .wake x) → s.Awake (new ++ rest) := h.rest_of_ne
  cases move_step hs with
  | infer => exact (hrest (by simp)).undisturbed (undisturbed_infer ..)
  | bound => exact (hrest (by simp)).undisturbed (undisturbed_onBound ..)
  | mismatch => exact (hrest (by simp)).undisturbed (undisturbed_mismatch ..)
  | block hnone =>
    intro w hw
    rcases List.mem_append.mp hw with hw | hw
    · exact hrest (by simp) w hw
    · rw [List.mem_singleton.mp hw]
      exact .inl hnone
  | initialise hu | actUnify hu => exact (hrest (by simp)).queues (queues_unify hu) rfl
  | actBound other => exact (hrest (by simp)).queues (queues_settleBound s other) rfl
  | @wake x t ht =>
    intro w hw
    obtain ⟨hmem, hne⟩ := List.mem_filter.mp hw
    have hother : w.1 ≠ x := by simpa using hne
    exact (h w hmem).imp_right (.imp_right fun hwake => by simpa [hother] using hwake)
  | @sleep x hnone =>
    intro w hw
    by_cases hx : w.1 = x
    · exact .inl (hx ▸ hnone)
    · exact (h w hw).imp_right (.imp_right fun hwake => by simpa [hx] using hwake)
  | settle =>
    -- What was queued becomes a task, and the queue is emptied.
    intro w hw
    rcases hrest (by simp) w hw with hnone | hsettled | hwake
    · exact .inl hnone
    · exact .inr (.inr (List.mem_append_left _
        (List.mem_append_left _ (List.mem_map_of_mem hsettled))))
    · exact .inr (.inr hwake)
  | _ => exact (hrest (by simp)).queues (.of_graph_eq rfl rfl) rfl

end Awake

/-- Nobody waits for what is there already, neither for a node nor for a symbol. -/
structure Vigilant (s : State) (ts : List Task) : Prop where
  alert : s.Alert ts
  awake : s.Awake ts

namespace Vigilant

theorem step (h : s.Vigilant (task :: rest)) (hs : s.step task = .ok (new, s')) :
    s'.Vigilant (new ++ rest) :=
  ⟨h.alert.step hs, h.awake.step hs⟩

theorem run (h : s.Vigilant ts) (hrun : s.run ts = (s', .ok ())) : s'.Vigilant [] :=
  run_keeps step s ts h hrun

theorem unbound (h : s.Vigilant []) : ∀ w ∈ s.blocked, s.graph.bound? w.1 = none := by
  intro w hw
  rcases h.awake w hw with hnone | hsettled | hwake
  · exact hnone
  · cases h.alert.settling (List.ne_nil_of_mem hsettled)
  · cases hwake

theorem settled_eq_nil (h : s.Vigilant []) : s.groups.settled = [] := by
  by_contra hne
  cases h.alert.settling hne

end Vigilant

end State
end Binder.Inference
