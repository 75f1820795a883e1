import Binder.Proofs.Inference.Ready

/-! What may happen between two runs of inference. Tasks become due, types are added to the graph, and
two symbols are unified. A state that was ready is ready again afterwards. -/
namespace Binder.Inference

open Binder.Tree (Expr NodeId)

theorem count_cons_eq (n : NodeId) (e : Expr) (es : List Expr) :
    Tree.count n (e :: es) = (Charge.toNode n).node e.id + Tree.count n es := by
  simp only [Tree.count, List.countP_cons, Charge.toNode, decide_eq_true_eq]
  omega

theorem count_flatMap (n : NodeId) (f : Expr → List Expr) (es : List Expr) :
    Tree.count n (es.flatMap f) = total (fun e => Tree.count n (f e)) es := by
  induction es with
  | nil => rfl
  | cons e es ih => rw [List.flatMap_cons, Tree.count_append, ih, total_cons]

theorem inferCharge_le_count (n : NodeId) (e : Expr) :
    inferCharge (.toNode n) e ≤ Tree.count n e.preorder := by
  induction e using Tree.operands_induction with
  | h e ih =>
    have hbelow : Tree.count n (e :: e.operands.flatMap Tree.Node.preorder) ≤ Tree.count n e.preorder :=
      (Tree.operands_sublist_preorder e).countP_le
    rw [count_cons_eq, count_flatMap] at hbelow
    rw [inferCharge_eq]
    exact (Nat.add_le_add_left (total_le_total ih) _).trans hbelow

namespace State

variable {V : List SymbolId} {D D' : Prop} {s s' : State} {ts rest : List Task} {x y : SymbolId}
  {g : TypeGraph} {t : TypeId} {unified : Bool}

theorem Linear.begin (h : s.Linear []) (hslots : ∀ call slot, owed (.toSlot call slot) ts = 0)
    (hnodes : ∀ n, owed (.toNode n) ts + s.tally n ≤ 1) : s.Linear ts where
  slots call slot := by
    have hheld := h.slots call slot
    rwa [owed_nil, ← hslots call slot] at hheld
  missing := h.missing
  once := hnodes

theorem Alert.begin (h : s.Alert []) (ts : List Task) : s.Alert ts :=
  ⟨h.untyped, fun hne => nomatch h.settling hne⟩

theorem Ready.begin (h : s.Ready V D []) (hvalid : ∀ task ∈ ts, task.Valid V D s)
    (hslots : ∀ call slot, owed (.toSlot call slot) ts = 0)
    (hnodes : ∀ n, owed (.toNode n) ts + s.tally n ≤ 1) : s.Ready V D ts where
  tidy := { h.tidy with scope := h.tidy.scope, values := h.tidy.values, tasks := hvalid }
  linear := h.linear.begin hslots hnodes
  alert := h.alert.begin ts

theorem Linear.congr (h : s.Linear ts) (htyped : s'.typed = s.typed)
    (hwaiting : s'.waiting = s.waiting) (hblocked : s'.blocked = s.blocked)
    (hcalls : s'.calls = s.calls) : s'.Linear ts where
  slots call slot := by
    simp only [held, vacant, htyped, hwaiting, hblocked, hcalls]
    exact h.slots call slot
  missing hcall := h.missing (hcalls ▸ hcall)
  once n := by
    simp only [tally, held, htyped, hwaiting, hblocked, hcalls]
    exact h.once n

theorem Linear.settling (h : s.Linear []) (hu : s.unify x y = .ok (unified, s')) :
    s'.Linear [.settle] := by
  have hlinear : s.Linear [.settle] := ⟨⟨h.slots, h.missing⟩, h.once⟩
  obtain ⟨graph, groups, -, rfl⟩ := unify_eq hu
  exact hlinear.congr rfl rfl rfl rfl

def setGraph (s : State) (g : TypeGraph) : State := { s with graph := g }

theorem Sound.weaken (h : s.Sound V D x) (hlater : s.Later s') (hD : D' → D) : s'.Sound V D' x := by
  obtain ⟨hsource, hne⟩ := hlater.sound h
  exact ⟨hsource, fun hclean hd => hne hclean (hD hd)⟩

theorem SoundType.weaken (h : s.SoundType D t) (hlater : s.Later s') (hD : D' → D) :
    s'.SoundType D' t := by
  obtain ⟨htype, hne⟩ := hlater.soundType h
  exact ⟨htype, fun hclean hd => hne hclean (hD hd)⟩

theorem WhenBound.Valid.weaken {next : WhenBound} (h : next.Valid V D s.graph)
    (hlater : s.Later s') (hD : D' → D) : next.Valid V D' s'.graph := by
  cases next with
  | select | deliver => trivial
  | compare expected origin =>
    obtain ⟨hbound, hV, hne⟩ := hlater.whenBound h
    exact ⟨hbound, hV, fun hd => hne (hD hd)⟩
  | observe => exact h

theorem WhenTyped.Valid.weaken {next : WhenTyped} (h : next.Valid V D s.graph)
    (hlater : s.Later s') (hD : D' → D) : next.Valid V D' s'.graph := by
  cases next with
  | resolve origin next => exact WhenBound.Valid.weaken h hlater hD
  | copy => trivial
  | initialise => exact h
  | observe => exact h

theorem Ready.setGraph (h : s.Ready V D []) (hg : s.graph.Grows g) (hsettled : g.Settled V D')
    (hvalues : ∀ x ∈ V, g.bound? x = s.graph.bound? x) (hD : D' → D) :
    (s.setGraph g).Ready V D' [] := by
  have hlater : s.Later (s.setGraph g) := ⟨hg, id⟩
  have htidy := h.tidy
  have halert : (s.setGraph g).Alert [] := ⟨h.alert.untyped, h.alert.settling⟩
  refine { tidy := ?_, linear := h.linear.congr rfl rfl rfl rfl, alert := halert }
  refine
    { graph := hsettled
      members := htidy.members
      disjoint := htidy.disjoint
      uniform := ?_
      scope := fun hfind => (htidy.scope hfind).weaken hlater hD
      typed := fun p hp => (htidy.typed p hp).weaken hlater hD
      values := ?_
      waiting := fun w hw => WhenTyped.Valid.weaken (htidy.waiting w hw) hlater hD
      blocked := ?_
      slots := fun hcall _ ht => (htidy.slots hcall ht).weaken hlater hD
      tasks := nofun }
  · intro group hgroup a ha b hb
    have hsame := htidy.uniform group hgroup a ha b hb
    have ha' := hvalues a (htidy.members group hgroup a ha)
    have hb' := hvalues b (htidy.members group hgroup b hb)
    exact ha'.trans (hsame.trans hb'.symm)
  · intro a ha v hv
    exact (htidy.values a ha ((hvalues a ha).symm.trans hv)).weaken hlater hD
  · intro w hw
    obtain ⟨hV, hnext⟩ := htidy.blocked w hw
    exact ⟨hV, WhenBound.Valid.weaken hnext hlater hD⟩

theorem Ready.tidy_settle (h : s.Ready V D []) : s.Tidy V D [.settle] :=
  { h.tidy with
    scope := h.tidy.scope
    values := h.tidy.values
    tasks := fun task htask => by
      rw [List.mem_singleton.mp htask]
      trivial }

theorem Ready.settling (h : s.Ready V D []) (hx : s.Sound V D x) (hy : s.Sound V D y)
    (hu : s.unify x y = .ok (unified, s')) : s'.Ready V D [.settle] := by
  obtain ⟨unified', s₁, hu', -, htidy⟩ := h.tidy_settle.unify hx hy
  cases hu.symm.trans hu'
  refine ⟨htidy, h.linear.settling hu, ?_⟩
  obtain ⟨graph, groups, -, rfl⟩ := unify_eq hu
  exact ⟨h.alert.untyped, fun _ => List.mem_cons_self⟩

theorem Ready.unify (h : s.Ready V D []) (hx : s.Sound V D x) (hy : s.Sound V D y) :
    ∃ unified s₁ s', s.unify x y = .ok (unified, s₁) ∧ s₁.Advances s' ∧
      Inference.unify s x y = (s', .ok unified) ∧ Completes V D s [] s' := by
  obtain ⟨unified, s₁, hu, -, -⟩ := h.tidy_settle.unify hx hy
  have hadvances := advances_unify hu
  obtain ⟨s', hrun, hdone⟩ := (h.settling hx hy hu).run
  obtain ⟨graph, groups, -, rfl⟩ := unify_eq hu
  refine ⟨unified, _, s', hu, hdone.advances, ?_, ?_⟩
  · simp only [Inference.unify, hu, hrun]
    rfl
  · constructor
    · exact hdone.ready
    · exact hadvances.trans hdone.advances
    · exact hdone.tally

end State
end Binder.Inference
