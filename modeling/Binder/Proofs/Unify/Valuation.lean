import Binder.Proofs.Unify.Grouping

/-! Unification and the finite shapes that symbols can take. A valuation gives every symbol a shape;
it respects a state of unification when bound symbols have the shape of their type and the symbols
of a group have one shape. Unifying two symbols rules out exactly the valuations that tell them
apart, and fails only where every valuation does. -/
namespace Binder

/-- What a type comes down to when the sizes of arrays are left out. -/
inductive Shape where
  | leaf (type : TypeId)
  | array (elements : Shape)
  | reference (referent : Shape)
  deriving DecidableEq, Repr

def Shape.depth : Shape → Nat
  | .leaf _ => 0
  | .array elements => elements.depth + 1
  | .reference referent => referent.depth + 1

abbrev Valuation := SymbolId → Shape

/-- The shape of a type whose part has the shape that the valuation gives it. -/
def TypeGraph.shapeOf (g : TypeGraph) (ρ : Valuation) (type : TypeId) : Shape :=
  match g.kind? type with
  | some (.array elements _) => .array (ρ elements)
  | some (.reference referent) => .reference (ρ referent)
  | _ => .leaf type

/-- Bound symbols have the shape of their type, and the symbols of a group have one shape. -/
structure Respects (g : TypeGraph) (gs : Groups) (ρ : Valuation) : Prop where
  bound : ∀ {s type}, g.bound? s = some type → ρ s = g.shapeOf ρ type
  grouped : ∀ group ∈ gs.groups, ∀ a ∈ group, ∀ b ∈ group, ρ a = ρ b

variable {g g' : TypeGraph} {gs gs' : Groups} {ρ : Valuation} {a b s t v : SymbolId} {type : TypeId}

/-- Shapes are finite: the depths that a valuation gives rank the graph. -/
theorem Respects.ranked (h : Respects g gs ρ) : g.Ranked fun s => (ρ s).depth := by
  intro s type e hs he
  have hshape := h.bound hs
  rcases TypeGraph.part?_eq_some_iff.mp he with ⟨size, hk⟩ | hk
  · rw [TypeGraph.shapeOf, hk] at hshape
    simp [hshape, Shape.depth]
  · rw [TypeGraph.shapeOf, hk] at hshape
    simp [hshape, Shape.depth]

theorem Respects.groupOf (h : Respects g gs ρ) (ha : a ∈ gs.groupOf s) : ρ a = ρ s := by
  rcases Groups.mem_groupOf_cases ha with hmem | rfl
  · exact h.grouped _ hmem a ha s (gs.mem_groupOf_self s)
  · rfl

/-- What a valuation must satisfy at the end of a comparison that comes to an end. -/
def TypeGraph.Meeting.Holds (g : TypeGraph) (ρ : Valuation) : TypeGraph.Meeting → Prop
  | .same => True
  | .clash | .endless => False
  | .binds s type => ρ s = g.shapeOf ρ type
  | .joins a b => ρ a = ρ b

theorem shapeOf_ne {x y : TypeId} (hne : x ≠ y)
    (harray : ∀ e n e' n', g.kind? x = some (.array e n) → g.kind? y = some (.array e' n') → False)
    (href : ∀ e e', g.kind? x = some (.reference e) → g.kind? y = some (.reference e') → False) :
    g.shapeOf ρ x ≠ g.shapeOf ρ y := by
  unfold TypeGraph.shapeOf
  split
  next e n hx =>
    split
    next e' n' hy => exact (harray e n e' n' hx hy).elim
    next => simp
    next => simp
  next e hx =>
    split
    next => simp
    next e' hy => exact (href e e' hx hy).elim
    next => simp
  next => split <;> simp [hne]

/-- A comparison follows the shapes down to where it ends. -/
theorem shapes_eq_iff_holds (h : Respects g gs ρ) {depth : Nat}
    (hm : g.meet depth t v ≠ .endless) : ρ t = ρ v ↔ (g.meet depth t v).Holds g ρ := by
  induction depth generalizing t v with
  | zero => exact absurd rfl hm
  | succ depth ih =>
    unfold TypeGraph.meet at hm ⊢
    split
    next heq => simp [heq, TypeGraph.Meeting.Holds]
    next hne =>
      simp only [hne, ↓reduceIte] at hm
      split
      next x ht _ =>
        rw [TypeGraph.Meeting.Holds, h.bound ht]
        exact eq_comm
      next y _ hv => rw [TypeGraph.Meeting.Holds, h.bound hv]
      next => rfl
      next x y ht hv =>
        simp only [ht, hv] at hm
        split
        next heq =>
          subst heq
          simp [TypeGraph.Meeting.Holds, h.bound ht, h.bound hv]
        next hxy =>
          simp only [hxy, ↓reduceIte] at hm
          rw [h.bound ht, h.bound hv]
          split
          next e n e' n' hx hy =>
            simp only [hx, hy] at hm
            simp only [TypeGraph.shapeOf, hx, hy, Shape.array.injEq]
            exact ih hm
          next e e' hx hy =>
            simp only [hx, hy] at hm
            simp only [TypeGraph.shapeOf, hx, hy, Shape.reference.injEq]
            exact ih hm
          next harray href =>
            simp only [TypeGraph.Meeting.Holds, iff_false]
            exact shapeOf_ne hxy (fun e n e' n' => harray e n e' n') (fun e e' => href e e')

/-- Passing a type on asks of a valuation that the symbols that take it have its shape. -/
theorem respects_spread (ss : List SymbolId) :
    Respects (gs.spread g type ss).1 (gs.spread g type ss).2 ρ ↔
      Respects g gs ρ ∧ ∀ m ∈ ss, g.isUnbound m → ρ m = g.shapeOf ρ type := by
  have hshape (x : TypeId) : (g.bindAll type ss).1.shapeOf ρ x = g.shapeOf ρ x := by
    simp [TypeGraph.shapeOf]
  constructor
  · intro h
    have hbound {m x} (hm : (g.bindAll type ss).1.bound? m = some x) : ρ m = g.shapeOf ρ x := by
      rw [← hshape]
      exact h.bound hm
    refine ⟨⟨fun hs => hbound ((TypeGraph.grows_bindAll type ss).bound hs), h.grouped⟩, ?_⟩
    intro m hm hu
    apply hbound
    simp [TypeGraph.bound?_bindAll, hm, hu]
  · rintro ⟨h, hnew⟩
    refine ⟨?_, h.grouped⟩
    intro m x hm
    rw [Groups.fst_spread] at hm ⊢
    rw [hshape]
    rw [TypeGraph.bound?_bindAll] at hm
    split at hm
    next hcond =>
      cases hm
      exact hnew m hcond.1 hcond.2
    next => exact h.bound hm

theorem respects_spread_groupOf (ρ : Valuation) (gs : Groups) (type : TypeId)
    (hs : g.isUnbound s) :
    Respects (gs.spread g type (s :: gs.groupOf s)).1 (gs.spread g type (s :: gs.groupOf s)).2 ρ ↔
      Respects g gs ρ ∧ ρ s = g.shapeOf ρ type := by
  rw [respects_spread]
  refine and_congr_right fun h => ⟨fun hall => hall s List.mem_cons_self hs, ?_⟩
  intro hshape m hm _
  rcases List.mem_cons.mp hm with rfl | hm
  · exact hshape
  · rw [h.groupOf hm, hshape]

/-- To join two groups is to give two symbols one shape. -/
theorem respects_join (hd : gs.Disjoint) :
    Respects g (gs.join a b) ρ ↔ Respects g gs ρ ∧ ρ a = ρ b := by
  by_cases hin : b ∈ gs.groupOf a
  · rw [Groups.join_eq_self hin]
    exact ⟨fun h => ⟨h, (h.groupOf hin).symm⟩, And.left⟩
  constructor
  · intro h
    -- The joined list is one of the new groups, and the groups of both symbols are parts of it.
    have hjoined : ∀ x ∈ gs.groupOf a ++ gs.groupOf b, ∀ y ∈ gs.groupOf a ++ gs.groupOf b,
        ρ x = ρ y :=
      h.grouped _ ((Groups.mem_join_groups hin).mpr (.inl rfl))
    have ha := List.mem_append_left (gs.groupOf b) (gs.mem_groupOf_self a)
    have hb := List.mem_append_right (gs.groupOf a) (gs.mem_groupOf_self b)
    refine ⟨⟨h.bound, ?_⟩, hjoined a ha b hb⟩
    intro group hgroup x hx y hy
    by_cases hga : a ∈ group
    · have hsame := Groups.groupOf_eq hd hgroup hga
      exact hjoined x (List.mem_append_left _ (hsame ▸ hx)) y (List.mem_append_left _ (hsame ▸ hy))
    by_cases hgb : b ∈ group
    · have hsame := Groups.groupOf_eq hd hgroup hgb
      exact hjoined x (List.mem_append_right _ (hsame ▸ hx)) y
        (List.mem_append_right _ (hsame ▸ hy))
    exact h.grouped group ((Groups.mem_join_groups hin).mpr (.inr ⟨hgroup, hga, hgb⟩)) x hx y hy
  · rintro ⟨h, heq⟩
    refine ⟨h.bound, ?_⟩
    intro group hgroup x hx y hy
    rcases (Groups.mem_join_groups hin).mp hgroup with rfl | ⟨hold, -, -⟩
    · have hone : ∀ z ∈ gs.groupOf a ++ gs.groupOf b, ρ z = ρ a := by
        intro z hz
        rcases List.mem_append.mp hz with hz | hz
        · exact h.groupOf hz
        · rw [h.groupOf hz, heq]
      rw [hone x hx, hone y hy]
    · exact h.grouped group hold x hx y hy

/-- The valuations after a successful unification are those before it that do not tell the two
symbols apart. -/
theorem respects_unify (h : gs.Wellformed g) (ht : g.HasSymbol t) (hv : g.HasSymbol v)
    (hu : gs.unify g t v = .ok (true, g', gs')) :
    Respects g' gs' ρ ↔ Respects g gs ρ ∧ ρ t = ρ v := by
  have hopen : (g.meet g.nestingDepth t v).Open g := Groups.open_meet h ht hv
  have hends (hr : Respects g gs ρ) : ρ t = ρ v ↔ (g.meet g.nestingDepth t v).Holds g ρ := by
    exact shapes_eq_iff_holds hr (TypeGraph.meet_ne_endless hr.ranked)
  unfold Groups.unify at hu
  split at hu
  next hm =>
    cases hu
    rw [hm] at hends
    exact ⟨fun hr => ⟨hr, (hends hr).mpr trivial⟩, And.left⟩
  next => cases hu
  next s type hm =>
    simp only [Except.ok.injEq, Prod.mk.injEq, true_and] at hu
    rw [hm] at hopen hends
    have hspread := respects_spread_groupOf ρ gs type hopen.1
    rw [hu] at hspread
    rw [hspread]
    exact and_congr_right fun hr => (hends hr).symm
  next x y hm =>
    cases hu
    rw [hm] at hends
    rw [respects_join h.disjoint]
    exact and_congr_right fun hr => (hends hr).symm
  next => cases hu

/-- Unification decides whether two symbols can have one shape, and adds nothing but that they do:
where a valuation gives them one shape it comes to an end and succeeds, a success leaves exactly
those valuations, and a failure means that there is none. -/
theorem unify_most_general (h : Groups.Reachable g gs) (ht : g.HasSymbol t) (hv : g.HasSymbol v) :
    ((∃ ρ, Respects g gs ρ ∧ ρ t = ρ v) → ∃ g' gs', gs.unify g t v = .ok (true, g', gs')) ∧
    (∀ g' gs', gs.unify g t v = .ok (true, g', gs') →
      ∀ ρ, Respects g' gs' ρ ↔ Respects g gs ρ ∧ ρ t = ρ v) ∧
    (∀ g' gs', gs.unify g t v = .ok (false, g', gs') → ¬ ∃ ρ, Respects g gs ρ ∧ ρ t = ρ v) := by
  have hends {ρ : Valuation} (hr : Respects g gs ρ) :
      ρ t = ρ v ↔ (g.meet g.nestingDepth t v).Holds g ρ :=
    shapes_eq_iff_holds hr (TypeGraph.meet_ne_endless hr.ranked)
  refine ⟨?_, ?_, ?_⟩
  · rintro ⟨ρ, hr, heq⟩
    have hholds := (hends hr).mp heq
    unfold Groups.unify
    cases hm : g.meet g.nestingDepth t v with
    | same => exact ⟨g, gs, rfl⟩
    | clash => simp [hm, TypeGraph.Meeting.Holds] at hholds
    | binds s type => exact ⟨_, _, rfl⟩
    | joins x y => exact ⟨_, _, rfl⟩
    | endless => simp [hm, TypeGraph.Meeting.Holds] at hholds
  · intro g' gs' hu ρ
    exact respects_unify h.wellformed ht hv hu
  · rintro g' gs' hu ⟨ρ, hr, heq⟩
    have hholds := (hends hr).mp heq
    unfold Groups.unify at hu
    cases hm : g.meet g.nestingDepth t v <;>
      simp [hm, TypeGraph.Meeting.Holds] at hu hholds

/-- A record, an unbound symbol, an array of what the unbound symbol stands for, and an array of
four records. -/
def openArray : TypeGraph where
  symbols := #[⟨"Int", some ⟨0⟩⟩, ⟨"", none⟩, ⟨"", some ⟨1⟩⟩, ⟨"", some ⟨2⟩⟩]
  types := #[{ symbol := ⟨0⟩, kind := .record }, { symbol := ⟨2⟩, kind := .array ⟨1⟩ none },
    { symbol := ⟨3⟩, kind := .array ⟨0⟩ (some 4) }]

theorem openArray_reachable : Groups.Reachable openArray .empty := by
  refine .start ⟨?_, ?_, by simp [Groups.empty], by simp [Groups.Disjoint, Groups.empty]⟩
  · rintro ⟨_ | _ | _ | _ | n⟩ type hs <;> cases hs <;> decide
  · rintro ⟨_ | _ | _ | n⟩ e hp <;> cases hp <;> decide

theorem unify_most_general_openArray :
    Groups.Reachable openArray .empty ∧ openArray.HasSymbol ⟨2⟩ ∧ openArray.HasSymbol ⟨3⟩ ∧
    ∃ g' gs', Groups.empty.unify openArray ⟨2⟩ ⟨3⟩ = .ok (true, g', gs') ∧
      g'.bound? ⟨1⟩ = some ⟨0⟩ ∧
      ∀ ρ, Respects g' gs' ρ ↔ Respects openArray .empty ρ ∧ ρ ⟨2⟩ = ρ ⟨3⟩ := by
  have h2 : openArray.HasSymbol ⟨2⟩ := by decide
  have h3 : openArray.HasSymbol ⟨3⟩ := by decide
  have hmost := unify_most_general openArray_reachable h2 h3
  refine ⟨openArray_reachable, h2, h3, _, _, rfl, by decide, hmost.2.1 _ _ rfl⟩

end Binder
