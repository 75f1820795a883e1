import Binder.Proofs.Unify.History
import Binder.Proofs.Unify.Valuation

/-! Unifying two symbols again, in either order. -/

namespace Binder

variable {g g' : TypeGraph} {gs gs' : Groups} {a b s t v : SymbolId} {type : TypeId}

namespace TypeGraph

/-- How two symbols meet when they are compared the other way round. -/
def Meeting.swap : Meeting → Meeting
  | .joins first second => .joins second first
  | meeting => meeting

theorem meet_swap (g : TypeGraph) (depth : Nat) (a b : SymbolId) :
    g.meet depth b a = (g.meet depth a b).swap := by
  induction depth generalizing a b with
  | zero => rfl
  | succ depth ih =>
    unfold meet
    by_cases hab : a = b
    · simp [hab, Meeting.swap]
    · rw [if_neg hab, if_neg (Ne.symm hab)]
      cases g.bound? a <;> cases g.bound? b <;> try rfl
      next x y =>
        by_cases hxy : x = y
        · simp [hxy, Meeting.swap]
        · simp only [hxy, Ne.symm hxy, ↓reduceIte]
          split
          next hy hx => rw [hx, hy, ih]
          next hy hx => rw [hx, hy, ih]
          next harray hreference =>
            split
            next hx hy => exact absurd hx (harray _ _ _ _ hy)
            next hx hy => exact absurd hx (hreference _ _ hy)
            next => rfl

/-- Once a symbol has taken the type that a comparison asks for, the comparison succeeds: the
symbols on the way to it were bound before and keep their types. -/
theorem meet_of_binds (h : Grows g g') (hs : g'.bound? s = some type) {depth : Nat}
    (hm : g.meet depth a b = .binds s type) : g'.meet depth a b = .same := by
  induction depth generalizing a b with
  | zero => cases hm
  | succ depth ih =>
    unfold meet at hm ⊢
    split at hm
    next => cases hm
    next hab =>
      rw [if_neg hab]
      split at hm
      next ha hb =>
        cases hm
        simp [h.bound ha, hs]
      next ha hb =>
        cases hm
        simp [h.bound hb, hs]
      next => cases hm
      next ha hb =>
        split at hm
        next => cases hm
        next hne =>
          simp only [h.bound ha, h.bound hb, if_neg hne]
          split at hm
          next hx hy => simpa [h.kind? hx, h.kind? hy] using ih hm
          next hx hy => simpa [h.kind? hx, h.kind? hy] using ih hm
          next => cases hm

end TypeGraph

namespace Groups

theorem join_join (h : gs.Disjoint) (a b : SymbolId) :
    (gs.join a b).join a b = gs.join a b ∧ (gs.join a b).join b a = gs.join a b := by
  have ha := gs.mem_groupOf_self a
  have hb := gs.mem_groupOf_self b
  exact ⟨join_eq_self ((mem_groupOf_join h).mpr (.inr (.inl ⟨ha, hb⟩))),
    join_eq_self ((mem_groupOf_join h).mpr (.inr (.inr ⟨hb, ha⟩)))⟩

theorem unify_of_meet_same (h : g.meet g.nestingDepth t v = .same) :
    gs.unify g t v = .ok (true, g, gs) ∧ gs.unify g v t = .ok (true, g, gs) := by
  have hswap : g.meet g.nestingDepth v t = .same := by rw [TypeGraph.meet_swap, h]; rfl
  simp [unify, h, hswap]

theorem meet_spread (hs : g.isUnbound s) (hm : g.meet g.nestingDepth t v = .binds s type)
    (hg : (gs.spread g type (s :: gs.groupOf s)).1 = g') :
    g'.meet g'.nestingDepth t v = .same := by
  subst hg
  have hdepth : (gs.spread g type (s :: gs.groupOf s)).1.nestingDepth = g.nestingDepth := by
    simp [spread, TypeGraph.nestingDepth]
  rw [hdepth]
  have hgrows : TypeGraph.Grows g (gs.spread g type (s :: gs.groupOf s)).1 := by
    rw [fst_spread]
    exact TypeGraph.grows_bindAll type _
  refine TypeGraph.meet_of_binds hgrows ?_ hm
  simp [fst_spread, TypeGraph.bound?_bindAll, hs]

/-- A unification that fails changes nothing, and one that succeeds has done all there is to do:
made again at once, in either order, it succeeds and changes neither a binding nor a group nor the
queue of settled symbols. -/
theorem unify_again (h : Reachable g gs) (ht : g.HasSymbol t) (hv : g.HasSymbol v) :
    (∀ g' gs', gs.unify g t v = .ok (false, g', gs') → g' = g ∧ gs' = gs) ∧
    (∀ g' gs', gs.unify g t v = .ok (true, g', gs') →
      gs'.unify g' t v = .ok (true, g', gs') ∧ gs'.unify g' v t = .ok (true, g', gs')) := by
  have hopen : (g.meet g.nestingDepth t v).Open g := open_meet h.wellformed ht hv
  refine ⟨?_, ?_⟩
  · intro g' gs' hu
    unfold unify at hu
    split at hu <;> cases hu
    exact ⟨rfl, rfl⟩
  · intro g' gs' hu
    unfold unify at hu
    split at hu
    next hm =>
      cases hu
      exact unify_of_meet_same hm
    next => cases hu
    next s type hm =>
      rw [hm] at hopen
      simp only [Except.ok.injEq, Prod.mk.injEq, true_and] at hu
      exact unify_of_meet_same (meet_spread hopen.1 hm (congrArg Prod.fst hu))
    next a b hm =>
      cases hu
      have hjoin := join_join h.wellformed.disjoint a b
      have hswap : g.meet g.nestingDepth v t = .joins b a := by
        rw [TypeGraph.meet_swap, hm]
        rfl
      simp [unify, hm, hswap, hjoin]
    next => cases hu

end Groups

/-- The elements of two arrays are found to be one type, which settles an unbound symbol; the
second time nothing is left to settle. -/
theorem unify_again_openArray :
    Groups.Reachable openArray .empty ∧ openArray.HasSymbol ⟨2⟩ ∧ openArray.HasSymbol ⟨3⟩ ∧
    ∃ g' gs', Groups.empty.unify openArray ⟨2⟩ ⟨3⟩ = .ok (true, g', gs') ∧ gs'.settled = [⟨1⟩] ∧
      gs'.unify g' ⟨2⟩ ⟨3⟩ = .ok (true, g', gs') ∧ gs'.unify g' ⟨3⟩ ⟨2⟩ = .ok (true, g', gs') := by
  have h2 : openArray.HasSymbol ⟨2⟩ := by decide
  have h3 : openArray.HasSymbol ⟨3⟩ := by decide
  have hagain := (Groups.unify_again openArray_reachable h2 h3).2
  exact ⟨openArray_reachable, h2, h3, _, _, rfl, by decide, hagain _ _ rfl⟩

end Binder
