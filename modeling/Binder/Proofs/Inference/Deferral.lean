import Binder.Proofs.Inference.Ruling
import Binder.Proofs.TypeGraph.Acyclic
import Mathlib.Data.List.Perm.Basic

/-! When an expression is inferred. Symbols may be unified before and after that; where the unifications
leave alone what types are made of, the time at which the expression is inferred does not matter. -/
namespace Binder

open Binder.Tree (Expr Mark NodeId)

namespace TypeGraph

variable {g g' : TypeGraph} {a b x y : SymbolId} {t : TypeId}

/-- The symbols that types are made of: their own symbols, the parts of arrays and references, and the
types of parameters. -/
inductive Constituent (g : TypeGraph) : SymbolId → Prop
  | own {x : SymbolId} {t : TypeId} : g.bound? x = some t → Constituent g (g.symbolOf t)
  | part {t : TypeId} {e : SymbolId} : g.part? t = some e → Constituent g e
  | parameter {t : TypeId} {d : TypeDef} {signature : Signature} {p : Parameter} :
      g.def? t = some d → signature ∈ d.signatures → p ∈ signature.parameters →
      Constituent g p.type

/-- The second graph has the types of the first one, and it binds nothing that they are made of. -/
structure Firm (g g' : TypeGraph) : Prop where
  types : g'.types = g.types
  sources : ∀ {x t}, g'.bound? x = some t → ∃ y, g.bound? y = some t
  constituents : ∀ {x}, g.Constituent x → g'.bound? x = g.bound? x

namespace Firm

theorem def?_eq (h : g.Firm g') (t : TypeId) : g'.def? t = g.def? t := by
  rw [def?, h.types]
  rfl

theorem symbolOf_eq (h : g.Firm g') (t : TypeId) : g'.symbolOf t = g.symbolOf t := by
  rw [symbolOf, h.def?_eq]
  rfl

theorem sameWithin_eq (h : g.Firm g') (depth : Nat) (hx : g.Constituent x) (hy : g.Constituent y) :
    g'.sameWithin depth x y = g.sameWithin depth x y := by
  induction depth generalizing x y with
  | zero => rfl
  | succ depth ih =>
    have hkind : ∀ t, g'.kind? t = g.kind? t := fun t => by rw [kind?, h.def?_eq]; rfl
    have hpart : ∀ {t k e}, g.kind? t = some k → k.part? = some e → g.Constituent e := by
      intro t k e hk he
      exact .part (Option.bind_eq_some_iff.mpr ⟨k, hk, he⟩)
    simp only [sameWithin, h.constituents hx, h.constituents hy, hkind]
    split
    · rfl
    · split
      · split
        · rfl
        · split
          next hk hk' => rw [ih (hpart hk rfl) (hpart hk' rfl)]
          next hk hk' => rw [ih (hpart hk rfl) (hpart hk' rfl)]
          next => rfl
      · rfl

theorem sameType_eq (h : g.Firm g') (hx : g.Constituent x) (hy : g.Constituent y) :
    g'.sameType x y = g.sameType x y := by
  rw [sameType, nestingDepth, h.types, h.sameWithin_eq _ hx hy]
  rfl

end Firm
end TypeGraph

namespace Inference

open TypeGraph (Firm)

variable {E : List Expr} {g g' g'' : TypeGraph}

theorem Verdict.ofMember_of_types (h : g'.types = g.types) (member : String) (t : TypeId) :
    ofMember g' member t = ofMember g member t := by
  have hdef : g'.def? t = g.def? t := by
    rw [TypeGraph.def?, h]
    rfl
  simp only [ofMember, TypeGraph.isErrorType, hdef]
  rfl

theorem Verdict.ofCall_of_firm (h : g.Firm g') (names : List (Option String)) {ts : List TypeId}
    (hts : ∀ t ∈ ts, ∃ x, g.bound? x = some t) : ofCall g' names ts = ofCall g names ts := by
  refine ofCall_congr (fun _ => h.def?_eq _) ?_ hts names
  intro t d s q u hd hs hq hu
  obtain ⟨x, hx⟩ := hu
  rw [h.symbolOf_eq]
  exact h.sameType_eq (.parameter hd hs hq) (.own hx)

theorem steady_of_firm (htypes : g''.types = g'.types)
    (hfirm : ∀ {note target arguments}, .call note target arguments ∈ E → g.Firm g' ∧ g.Firm g'') :
    Verdict.Steady E g' g'' where
  ofMember member _ t _ := Verdict.ofMember_of_types htypes member t
  ofCall hcall names ts hts := by
    obtain ⟨h, h'⟩ := hfirm hcall
    have hsources : ∀ t ∈ ts, ∃ x, g.bound? x = some t := by
      intro t ht
      obtain ⟨x, hx⟩ := hts t ht
      exact h.sources hx
    rw [Verdict.ofCall_of_firm h' names hsources, Verdict.ofCall_of_firm h names hsources]

namespace State

variable {E : List Expr} {s s' s₁ s₂ t : State} {task : Task} {ts rest new : List Task} {x y : Expr}
  {a b : SymbolId} {unified : Bool}

theorem exists_of_meet {depth : Nat} {z : SymbolId} {type : TypeId}
    (h : g.meet depth a b = .binds z type) : ∃ y, g.bound? y = some type := by
  induction depth generalizing a b with
  | zero => cases h
  | succ depth ih =>
    unfold TypeGraph.meet at h
    split at h
    · cases h
    · split at h
      next hb _ =>
        cases h
        exact ⟨_, hb⟩
      next hb =>
        cases h
        exact ⟨_, hb⟩
      next => cases h
      next =>
        split at h
        · cases h
        · split at h
          next => exact ih h
          next => exact ih h
          next => cases h

theorem types_unify (h : s.unify a b = .ok (unified, s')) :
    s'.graph.types = s.graph.types ∧
      ∀ {z t}, s'.graph.bound? z = some t → ∃ y, s.graph.bound? y = some t := by
  obtain ⟨graph, groups, hu, rfl⟩ := unify_eq h
  unfold Groups.unify at hu
  split at hu
  · cases hu
    exact ⟨rfl, fun hb => ⟨_, hb⟩⟩
  · cases hu
    exact ⟨rfl, fun hb => ⟨_, hb⟩⟩
  next z type hmeet =>
    have hspread := (Prod.mk.inj (Except.ok.inj hu)).2
    have hgraph : graph = (s.graph.bindAll type (z :: s.groups.groupOf z)).1 :=
      (congrArg Prod.fst hspread).symm
    subst hgraph
    refine ⟨TypeGraph.types_bindAll _, ?_⟩
    intro z t hb
    simp only [TypeGraph.bound?_bindAll] at hb
    split at hb
    · cases hb
      exact exists_of_meet hmeet
    · exact ⟨_, hb⟩
  · cases hu
    exact ⟨rfl, fun hb => ⟨_, hb⟩⟩
  · cases hu

theorem extends_spread {t : TypeId} (ht : s.graph.bound? a = some t) (ss : List SymbolId) :
    s.graph.Extends (s.groups.spread s.graph t ss).1 := by
  rw [Groups.fst_spread]
  exact ⟨TypeGraph.grows_bindAll t ss, fun h => h.bindAll (h ht) ss⟩

theorem extends_unify (h : s.unify a b = .ok (unified, s')) : s.graph.Extends s'.graph := by
  obtain ⟨graph, groups, hu, rfl⟩ := unify_eq h
  unfold Groups.unify at hu
  split at hu
  next => cases hu; exact .refl _
  next => cases hu; exact .refl _
  next z type hmeet =>
    obtain ⟨y, hy⟩ := exists_of_meet hmeet
    have hextends := extends_spread hy (z :: s.groups.groupOf z)
    rwa [(Prod.mk.inj (Except.ok.inj hu)).2] at hextends
  next => cases hu; exact .refl _
  next => cases hu

theorem extends_settleBound (s : State) (symbol : SymbolId) :
    s.graph.Extends (s.settleBound symbol).graph := by
  unfold settleBound Groups.settleBound
  cases hb : s.graph.bound? symbol with
  | none => exact .refl _
  | some t => exact extends_spread hb _

theorem extends_step (hs : s.step task = .ok (new, s')) : s.graph.Extends s'.graph := by
  cases move_step hs with
  | infer e => exact (undisturbed_infer s e).graph ▸ .refl _
  | bound next t => exact (undisturbed_onBound s next t).graph ▸ .refl _
  | mismatch expected found origin =>
    exact (undisturbed_mismatch s expected found origin).graph ▸ .refl _
  | initialise hu | actUnify hu => exact extends_unify hu
  | actBound => exact extends_settleBound ..
  | _ => exact .refl _

/-- Nothing but the given nodes is inferred, and every symbol of theirs comes of a verdict. -/
structure Solo (E : List Expr) (s : State) (ts : List Task) : Prop where
  provenance : s.Provenance E ts
  vigilant : s.Vigilant ts
  linear : s.Linear ts
  bare : s.Bare ts
  counted : ∀ n, owed (.toNode n) ts + s.tally n = Tree.count n E
  ruled : ∃ R, s.Ruled E ts R

theorem Spares.trans (h : s.Spares s₁) (h' : s₁.Spares s₂) : s.Spares s₂ :=
  ⟨h'.graph.trans h.graph, h'.scope.trans h.scope, h'.groups.trans h.groups⟩

namespace Solo

variable {e : Expr}

theorem step (h : s.Solo E (task :: rest)) :
    ∃ new s', s.step task = .ok (new, s') ∧ s'.Solo E (new ++ rest) ∧ s.Spares s' := by
  obtain ⟨new, s', hs, hbare, hspares⟩ := h.bare.step h.linear
  obtain ⟨R, hR⟩ := h.ruled
  refine ⟨new, s', hs, ?_, hspares⟩
  constructor
  · exact h.provenance.step hs
  · exact h.vigilant.step hs
  · exact h.linear.step hs
  · exact hbare
  · intro n
    have hn := h.counted n
    have htally := tally_step n h.linear.toDelivering hs
    rw [owed_cons] at hn
    rw [owed_append]
    omega
  · exact hR.step h.provenance h.linear.toDelivering (hspares.graph ▸ .refl E _)
      (.inl (h.bare.tasks task List.mem_cons_self)) hs

theorem run (h : s.Solo E ts) :
    ∃ s', s.run ts = (s', .ok ()) ∧ s'.Solo E [] ∧ s.Spares s' := by
  apply run_ok (P := fun s₁ ts₁ => s₁.Solo E ts₁ ∧ s.Spares s₁)
  · rintro s₁ task rest ⟨hsolo, hspares⟩
    obtain ⟨new, s₂, hs, hsolo₂, hspares₂⟩ := hsolo.step
    exact ⟨new, s₂, hs, hsolo₂, hspares.trans hspares₂⟩
  · exact ⟨h, rfl, rfl, rfl⟩

theorem followed (h : s.Solo E []) : s.Followed E where
  provenance := h.provenance
  vigilant := h.vigilant
  linear := h.linear
  counted n := by
    have hn := h.counted n
    rw [owed_nil] at hn
    omega

theorem initial (g : TypeGraph) (scope : Scope Declaration) : (State.initial g scope).Solo [] [] where
  provenance := (Followed.initial g scope).provenance
  vigilant := (Followed.initial g scope).vigilant
  linear := (Followed.initial g scope).linear
  bare := ⟨nofun, nofun, nofun⟩
  counted _ := rfl
  ruled := ⟨[], nofun, .refl _, rfl⟩

theorem begin (h : s.Solo [] []) (honce : ∀ n, inferCharge (.toNode n) e ≤ 1) :
    s.Solo e.reached [.infer e] := by
  have hinferable : Inferable e.reached := by
    constructor
    · intro x hx y hy
      exact Tree.operand_mem_reached hy e hx
    · apply eq_of_count_le_one
      intro n
      rw [← inferCharge_eq_count]
      exact honce n
  have htally : ∀ n, s.tally n = 0 := by
    intro n
    have hn := h.counted n
    rwa [owed_nil, Tree.count_nil, Nat.zero_add] at hn
  obtain ⟨R, hR⟩ := h.ruled
  constructor
  · apply h.provenance.widen (List.nil_subset _) hinferable
    intro task htask
    rw [List.mem_singleton.mp htask]
    exact Tree.mem_reached_self e
  · exact h.vigilant.begin _
  · apply h.linear.begin
    · intro call slot
      rw [owed_cons, owed_nil, Task.charge, inferCharge_eq_zero fun _ => rfl]
    · intro n
      rw [owed_cons, owed_nil, Task.charge, htally]
      exact honce n
  · refine ⟨h.bare.waiting, h.bare.blocked, ?_⟩
    intro task htask
    rw [List.mem_singleton.mp htask]
    rfl
  · intro n
    rw [owed_cons, owed_nil, Task.charge, inferCharge_eq_count, htally]
    rfl
  · refine ⟨R, ?_, hR.entries, hR.reports⟩
    intro r hr
    exact absurd (hR.verdicts r hr).1 List.not_mem_nil

theorem infer (h : s.Solo [] []) (honce : ∀ n, Tree.count n e.preorder ≤ 1) :
    ∃ s', Inference.infer s e = (s', .ok ()) ∧ s'.Solo e.reached [] ∧ s.Spares s' :=
  (h.begin fun n => Nat.le_trans (inferCharge_le_count n e) (honce n)).run

theorem unify (h : s.Solo E []) (hu : s.unify a b = .ok (unified, s₁))
    (hsteady : Verdict.Steady E s.graph s₁.graph) :
    ∃ s', Inference.unify s a b = (s', .ok unified) ∧ s'.Solo E [] ∧ s₁.Spares s' := by
  have hgrows := (advances_unify hu).grows
  have hprovenance := h.provenance.settling hu
  have hvigilant := h.vigilant.settling hu
  have hlinear := h.linear.settling hu
  obtain ⟨R, hR⟩ := h.ruled
  have hstart : s₁.Solo E [.settle] := by
    obtain ⟨graph, groups, -, rfl⟩ := unify_eq hu
    refine ⟨hprovenance, hvigilant, hlinear, ?_, h.counted, R, ?_, hR.entries, hR.reports⟩
    · exact ⟨h.bare.waiting, h.bare.blocked, by simp [Task.isBare]⟩
    · intro r hr
      obtain ⟨hmem, hverdict⟩ := hR.verdicts r hr
      exact ⟨hmem, verdict?_mono (s := s) ⟨id, hgrows⟩ rfl hsteady hmem hverdict⟩
  obtain ⟨s', hrun, hsolo, hspares⟩ := hstart.run
  refine ⟨s', ?_, hsolo, hspares⟩
  simp only [Inference.unify, hu, hrun]
  rfl

end Solo
end State
end Inference
end Binder
