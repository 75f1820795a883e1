import Binder.Proofs.Inference.Ready

/-! Promises. A continuation that waits for a node is followed from the task that asks for it to what
comes of it: a value is unified with its initialiser, and a fallback has the type that is expected of
it. No step of a run breaks a promise as long as nothing is reported. -/
namespace Binder.Inference

open Binder.Tree (Expr Mark NodeId)

namespace State

variable (s : State) (ts : List Task)

/-- Two symbols that were unified with success. -/
def Linked (a b : SymbolId) : Prop :=
  (∃ group ∈ s.groups.groups, a ∈ group ∧ b ∈ group) ∨ s.graph.SameUpToSize a b

/-- What has come of a type that was shown to a continuation. -/
def Effect : WhenBound → TypeId → Prop
  | .compare expected _, t => s.graph.isBound expected ∧ s.graph.HasType t ∧
      s.graph.sameType expected (s.graph.symbolOf t)
  | _, _ => True

/-- A continuation that goes on as soon as a symbol is bound. -/
def Resolving (symbol : SymbolId) (origin : Span) (next : WhenBound) : Prop :=
  Task.pendType symbol origin next ∈ ts ∨ (symbol, origin, next) ∈ s.blocked ∨
    ∃ t, s.graph.bound? symbol = some t ∧ (Task.bound next t ∈ ts ∨ s.Effect next t)

/-- What has come of a symbol that a continuation was told. -/
def Heard : WhenTyped → SymbolId → Prop
  | .resolve origin next, symbol => s.Resolving ts symbol origin next
  | .initialise value origin, symbol =>
      s.Linked value symbol ∨ Task.mismatch value symbol origin ∈ ts
  | _, _ => True

/-- A continuation that goes on as soon as a node is typed. -/
def Kept (node : NodeId) (next : WhenTyped) : Prop :=
  Task.pend node next ∈ ts ∨ (node, next) ∈ s.waiting ∨
    ∃ symbol, s.typeOf? node = some symbol ∧ (Task.typed next symbol ∈ ts ∨ s.Heard ts next symbol)

/-- Symbols that nodes have and what was unified are still there. -/
structure Upholds (V : List SymbolId) (D : Prop) (s s' : State) : Prop where
  before : s.graph.Settled V D
  after : ∃ rank, s'.graph.Ranked rank
  grows : s.graph.Grows s'.graph
  typed : ∀ {node symbol}, s.typeOf? node = some symbol → s'.typeOf? node = some symbol
  groups : ∀ group ∈ s.groups.groups, ∃ group' ∈ s'.groups.groups, group ⊆ group'

variable {V : List SymbolId} {D : Prop} {s s' : State} {task : Task} {ts ts' rest new : List Task}
  {t : TypeId} {x y symbol : SymbolId} {origin : Span} {node : NodeId} {next : WhenTyped}

namespace Upholds

theorem refl (h : s.graph.Settled V D) : Upholds V D s s :=
  ⟨h, ⟨_, h.ranked⟩, .refl _, id, fun group hgroup => ⟨group, hgroup, List.Subset.refl group⟩⟩

variable (h : Upholds V D s s')

include h

theorem linked (hl : s.Linked x y) : s'.Linked x y := by
  rcases hl with ⟨group, hgroup, hx, hy⟩ | hsame
  · obtain ⟨group', hgroup', hsub⟩ := h.groups group hgroup
    exact .inl ⟨group', hgroup', hsub hx, hsub hy⟩
  · exact .inr (hsame.grows h.grows)

theorem effect {next : WhenBound} (he : s.Effect next t) : s'.Effect next t := by
  cases next with
  | compare expected origin =>
    obtain ⟨hbound, ht, hsame⟩ := he
    obtain ⟨rank, hrank⟩ := h.after
    refine ⟨h.grows.isBound hbound, h.grows.hasType ht, ?_⟩
    rw [h.before.sameType_symbolOf_eq hrank h.grows hbound ht]
    exact hsame
  | select | deliver | observe => trivial

/-- Where nothing that waits is let go, promises are kept. -/
theorem kept (hts : ts ⊆ ts') (hwaiting : s'.waiting = s.waiting) (hblocked : s'.blocked = s.blocked)
    (hk : s.Kept ts node next) : s'.Kept ts' node next := by
  rcases hk with hdue | hwaits | ⟨symbol, hsymbol, hdue | hheard⟩
  · exact .inl (hts hdue)
  · exact .inr (.inl (hwaiting ▸ hwaits))
  · exact .inr (.inr ⟨symbol, h.typed hsymbol, .inl (hts hdue)⟩)
  · refine .inr (.inr ⟨symbol, h.typed hsymbol, .inr ?_⟩)
    cases next with
    | resolve origin next =>
      rcases hheard with hdue | hblocks | ⟨t, ht, hshown⟩
      · exact .inl (hts hdue)
      · exact .inr (.inl (hblocked ▸ hblocks))
      · exact .inr (.inr ⟨t, h.grows.bound ht, hshown.imp (@hts _) h.effect⟩)
    | initialise => exact hheard.imp h.linked (@hts _)
    | copy | observe => trivial

end Upholds

/-! Unifications -/

theorem linked_join (hne : x ≠ y) : (s.join x y).Linked x y := by
  left
  by_cases hin : y ∈ s.groups.groupOf x
  · rw [State.join, Groups.join_eq_self hin]
    have hgroup := (Groups.mem_groupOf_cases hin).resolve_right hne.symm
    exact ⟨_, hgroup, s.groups.mem_groupOf_self x, hin⟩
  · refine ⟨s.groups.groupOf x ++ s.groups.groupOf y, (Groups.mem_join_groups hin).mpr (.inl rfl),
      List.mem_append_left _ (s.groups.mem_groupOf_self x),
      List.mem_append_right _ (s.groups.mem_groupOf_self y)⟩

theorem subset_join (h : s.Tidy V D ts) (x y : SymbolId) :
    ∀ group ∈ s.groups.groups, ∃ group' ∈ (s.join x y).groups.groups, group ⊆ group' := by
  intro group hgroup
  by_cases hin : y ∈ s.groups.groupOf x
  · rw [State.join, Groups.join_eq_self hin]
    exact ⟨group, hgroup, fun _ => id⟩
  have hmerged := (Groups.mem_join_groups hin).mpr (.inl rfl)
  by_cases hx : x ∈ group
  · refine ⟨_, hmerged, ?_⟩
    rw [Groups.groupOf_eq h.disjoint hgroup hx]
    exact List.subset_append_left _ _
  by_cases hy : y ∈ group
  · refine ⟨_, hmerged, ?_⟩
    rw [Groups.groupOf_eq h.disjoint hgroup hy]
    exact List.subset_append_right _ _
  · exact ⟨group, (Groups.mem_join_groups hin).mpr (.inr ⟨hgroup, hx, hy⟩), fun _ => id⟩

theorem linked_take (h : s.Tidy V D ts) (hx : x ∈ V) (hnone : s.graph.bound? x = none)
    (hy : s.graph.bound? y = some t) :
    (s.take x t).graph.bound? x = some t ∧ (s.take x t).graph.bound? y = some t := by
  refine ⟨?_, (Tidy.later_take s x t).graph.bound hy⟩
  rw [h.bound?_take hx hnone, if_pos List.mem_cons_self]

theorem subset_of_groups_eq (h : s'.groups.groups = s.groups.groups) :
    ∀ group ∈ s.groups.groups, ∃ group' ∈ s'.groups.groups, group ⊆ group' :=
  fun group hgroup => ⟨group, h ▸ hgroup, List.Subset.refl group⟩

theorem upholds_unify (h : s.Tidy V D ts) (hx : s.Sound V D x) (hy : s.Sound V D y) {unified : Bool}
    (hu : s.unify x y = .ok (unified, s')) :
    Upholds V D s s' ∧ (unified = true → s'.Linked x y) := by
  obtain ⟨_, _, hu', -, htidy⟩ := h.unify hx hy
  cases hu.symm.trans hu'
  have hupholds := @Upholds.mk V D s s' h.graph ⟨_, htidy.graph.ranked⟩
    (advances_unify hu).grows
  rcases h.unify_cases hx hy with
    ⟨unified, hu', hsame⟩ | ⟨z, w, t, hzw, hz, hnone, hw, hu'⟩ | ⟨-, -, hne, -, -, hu'⟩
  · cases hu.symm.trans hu'
    exact ⟨hupholds id (subset_of_groups_eq rfl), fun htrue => .inr (hsame htrue)⟩
  · cases hu.symm.trans hu'
    refine ⟨hupholds id (subset_of_groups_eq rfl), fun _ => .inr ?_⟩
    obtain ⟨hz', hw'⟩ := linked_take h hz hnone hw
    rcases hzw with ⟨rfl, rfl⟩ | ⟨rfl, rfl⟩
    · exact .type hz' hw'
    · exact .type hw' hz'
  · cases hu.symm.trans hu'
    exact ⟨hupholds id (subset_join h x y), fun _ => linked_join hne⟩

theorem Tidy.sameUpToSize_of_linked (h : s.Tidy V D []) (hl : s.Linked x y)
    (hx : s.graph.isBound x) : s.graph.SameUpToSize x y := by
  rcases hl with ⟨group, hgroup, hxg, hyg⟩ | hsame
  · obtain ⟨t, ht⟩ := TypeGraph.isBound_iff.mp hx
    exact .type ht ((h.uniform group hgroup y hyg x hxg).trans ht)
  · exact hsame

/-- As long as nothing is reported, no symbol of a node denotes the error type. -/
theorem Tidy.isError_eq_false (h : s.Tidy V D ts) (hx : s.Sound V D x) (hclean : s.diagnostics = [])
    (hD : D) : s.graph.isError x = false := by
  cases hb : s.graph.bound? x with
  | none => simp [TypeGraph.isError, TypeGraph.typeOf?, hb]
  | some t =>
    rw [TypeGraph.isError_eq_isErrorType hb]
    exact (h.soundType_of_bound hx hb).2 hclean hD

theorem mismatch_ne_nil {expected found : SymbolId}
    (hexpected : s.graph.isError expected = false) (hfound : s.graph.isError found = false) :
    (s.mismatch expected found origin).diagnostics ≠ [] := by
  simp [mismatch, hexpected, hfound, report]

/-! Steps after which nothing is reported -/

namespace Ready

variable (h : s.Ready V D (task :: rest)) (hs : s.step task = .ok (new, s'))

include h hs

theorem upholds_step : Upholds V D s s' where
  before := h.tidy.graph
  after := ⟨_, (h.tidy.keeps_step h.linear.toDelivering hs).graph.ranked⟩
  grows := (advances_step hs).grows
  typed := typeOf?_step hs
  groups := by
    have htask := h.tidy.tasks _ List.mem_cons_self
    cases move_step hs with
    | initialise hu =>
      exact (upholds_unify h.tidy (h.tidy.sound_value htask.1) htask.2 hu).1.groups
    | infer e => exact subset_of_groups_eq (by rw [(undisturbed_infer s e).groups])
    | bound next t => exact subset_of_groups_eq (by rw [(undisturbed_onBound s next t).groups])
    | mismatch => exact subset_of_groups_eq (by rw [(undisturbed_mismatch s ..).groups])
    | actUnify | actBound => exact htask.elim
    | _ => exact subset_of_groups_eq rfl

omit h in
theorem kept_of_waiting (hw : (node, next) ∈ s.waiting) : s'.Kept (new ++ rest) node next := by
  cases move_step hs with
  | @record n symbol =>
    by_cases hn : node = n
    · subst hn
      refine .inr (.inr ⟨symbol, by simp [typeOf?], .inl (List.mem_append_left rest ?_)⟩)
      exact List.mem_map.mpr ⟨_, List.mem_filter.mpr ⟨hw, by simp⟩, rfl⟩
    · exact .inr (.inl (List.mem_filter.mpr ⟨hw, by simpa using hn⟩))
  | wait => exact .inr (.inl (List.mem_append_left _ hw))
  | infer e => exact .inr (.inl ((undisturbed_infer s e).waiting ▸ hw))
  | bound next t => exact .inr (.inl ((undisturbed_onBound s next t).waiting ▸ hw))
  | mismatch => exact .inr (.inl ((undisturbed_mismatch s ..).waiting ▸ hw))
  | _ => exact .inr (.inl hw)

omit h in
theorem resolving_of_blocked {next : WhenBound} (hw : (symbol, origin, next) ∈ s.blocked) :
    s'.Resolving (new ++ rest) symbol origin next := by
  cases move_step hs with
  | @wake x t ht =>
    by_cases hx : symbol = x
    · subst hx
      refine .inr (.inr ⟨t, ht, .inl (List.mem_append_left rest ?_)⟩)
      exact List.mem_map.mpr ⟨_, List.mem_filter.mpr ⟨hw, by simp⟩, rfl⟩
    · exact .inr (.inl (List.mem_filter.mpr ⟨hw, by simpa using hx⟩))
  | block => exact .inr (.inl (List.mem_append_left _ hw))
  | infer e => exact .inr (.inl ((undisturbed_infer s e).blocked ▸ hw))
  | bound next t => exact .inr (.inl ((undisturbed_onBound s next t).blocked ▸ hw))
  | mismatch => exact .inr (.inl ((undisturbed_mismatch s ..).blocked ▸ hw))
  | _ => exact .inr (.inl hw)

variable (hD : D) (hclean : s'.diagnostics = [])

include hD hclean

theorem effect_of_bound {next : WhenBound} (htask : task = .bound next t) : s'.Effect next t := by
  subst htask
  cases next with
  | compare expected origin =>
    obtain ⟨⟨hbound, -, hne⟩, ht⟩ := h.tidy.tasks _ List.mem_cons_self
    have hreported := List.prefix_nil.mp (hclean ▸ (advances_step hs).diagnostics)
    obtain ⟨-, rfl⟩ := eq_of_ok hs
    simp only [onBound] at hclean ⊢
    split at hclean
    next hsame =>
      rw [if_pos hsame]
      exact ⟨hbound, ht.1, hsame⟩
    next =>
      have hexpected := h.tidy.isError_eq_false ⟨.inr hbound, fun _ => hne⟩ hreported hD
      have hfound : s.graph.isError (s.graph.symbolOf t) = false := by
        rw [TypeGraph.isError_eq_isErrorType (h.tidy.graph.bound?_symbolOf ht.1)]
        exact ht.2 hreported hD
      exact absurd hclean (mismatch_ne_nil hexpected hfound)
  | select | deliver | observe => trivial

theorem resolving {next : WhenBound} (hr : s.Resolving (task :: rest) symbol origin next) :
    s'.Resolving (new ++ rest) symbol origin next := by
  have hupholds := h.upholds_step hs
  rcases hr with hdue | hblocks | ⟨t, ht, hdue | heffect⟩
  · rcases List.mem_cons.mp hdue with rfl | hrest
    · cases move_step hs with
      | shown ht => exact .inr (.inr ⟨_, ht, .inl List.mem_cons_self⟩)
      | block => exact .inr (.inl (List.mem_append_right _ List.mem_cons_self))
    · exact .inl (List.mem_append_right new hrest)
  · exact resolving_of_blocked hs hblocks
  · refine .inr (.inr ⟨t, hupholds.grows.bound ht, ?_⟩)
    rcases List.mem_cons.mp hdue with heq | hrest
    · exact .inr (h.effect_of_bound hs hD hclean heq.symm)
    · exact .inl (List.mem_append_right new hrest)
  · exact .inr (.inr ⟨t, hupholds.grows.bound ht, .inr (hupholds.effect heffect)⟩)

theorem heard (hh : s.Heard (task :: rest) next symbol) : s'.Heard (new ++ rest) next symbol := by
  cases next with
  | resolve => exact h.resolving hs hD hclean hh
  | initialise value origin =>
    rcases hh with hlinked | hdue
    · exact .inl ((h.upholds_step hs).linked hlinked)
    · rcases List.mem_cons.mp hdue with rfl | hrest
      · obtain ⟨hexpected, hfound⟩ := h.tidy.tasks _ List.mem_cons_self
        have hreported := List.prefix_nil.mp (hclean ▸ (advances_step hs).diagnostics)
        obtain ⟨-, rfl⟩ := eq_of_ok hs
        exact absurd hclean (mismatch_ne_nil (h.tidy.isError_eq_false hexpected hreported hD)
          (h.tidy.isError_eq_false hfound hreported hD))
      · exact .inr (List.mem_append_right new hrest)
  | copy | observe => trivial

/-- A step after which nothing is reported keeps every promise. -/
theorem kept (hk : s.Kept (task :: rest) node next) : s'.Kept (new ++ rest) node next := by
  rcases hk with hdue | hwaits | ⟨symbol, hsymbol, hdue | hheard⟩
  · rcases List.mem_cons.mp hdue with rfl | hrest
    · cases move_step hs with
      | told hsymbol => exact .inr (.inr ⟨_, hsymbol, .inl List.mem_cons_self⟩)
      | wait => exact .inr (.inl (List.mem_append_right _ List.mem_cons_self))
    · exact .inl (List.mem_append_right new hrest)
  · exact kept_of_waiting hs hwaits
  · refine .inr (.inr ⟨symbol, typeOf?_step hs hsymbol, ?_⟩)
    rcases List.mem_cons.mp hdue with rfl | hrest
    · right
      obtain ⟨hnext, hsound⟩ := h.tidy.tasks _ List.mem_cons_self
      cases move_step hs with
      | resolve => exact .inl List.mem_cons_self
      | @initialise _ _ _ unified _ _ hu =>
        have hlinked := (upholds_unify h.tidy (h.tidy.sound_value hnext) hsound hu).2
        cases unified with
        | true => exact .inl (hlinked rfl)
        | false => exact .inr (List.mem_cons_of_mem _ List.mem_cons_self)
      | copy | observe => trivial
    · exact .inl (List.mem_append_right new hrest)
  · exact .inr (.inr ⟨symbol, typeOf?_step hs hsymbol, .inr (h.heard hs hD hclean hheard)⟩)

end Ready

/-! Promises once nothing is due -/

namespace Kept

theorem heard (hk : s.Kept [] node next) (halert : s.Alert []) (hs : s.typeOf? node = some symbol) :
    s.Heard [] next symbol := by
  rcases hk with hdue | hwaits | ⟨symbol', hsymbol, hheard⟩
  · cases hdue
  · cases hs.symm.trans (halert.untyped _ hwaits)
  · cases hs.symm.trans hsymbol
    exact hheard.resolve_left List.not_mem_nil

theorem linked (hk : s.Kept [] node (.initialise x origin)) (halert : s.Alert [])
    (hs : s.typeOf? node = some symbol) : s.Linked x symbol :=
  (hk.heard halert hs).resolve_right List.not_mem_nil

theorem effect {next : WhenBound} (hk : s.Kept [] node (.resolve origin next)) (halert : s.Alert [])
    (hunbound : ∀ w ∈ s.blocked, s.graph.bound? w.1 = none) (ht : s.resolved? node = some t) :
    s.Effect next t := by
  obtain ⟨symbol, hsymbol, hbound⟩ := Option.bind_eq_some_iff.mp ht
  rcases hk.heard halert hsymbol with hdue | hblocks | ⟨t', ht', hshown⟩
  · cases hdue
  · cases hbound.symm.trans (hunbound _ hblocks)
  · cases hbound.symm.trans ht'
    exact hshown.resolve_left List.not_mem_nil

end Kept
end State
end Binder.Inference
