import Binder.Proofs.TypeGraph.Likeness

/-! Graphs in which whoever goes from arrays to their elements and from references to their referents
comes to an end. Every graph that can still grow into a ranked one is such a graph, and two symbols of
it can be unified and compared without going round in circles. -/
namespace Binder.TypeGraph

variable {g g' g'' : TypeGraph} {s a b e : SymbolId} {t : TypeId} {rank : SymbolId → Nat}

/-- The symbol of the elements of an array or of the referent of a reference, seen from a symbol. -/
def inner? (g : TypeGraph) (s : SymbolId) : Option SymbolId := (g.bound? s).bind g.part?

theorem inner?_eq_some_iff : g.inner? s = some e ↔ ∃ t, g.bound? s = some t ∧ g.part? t = some e :=
  Option.bind_eq_some_iff

/-- Where one comes to from a symbol by going inwards so many times. -/
def inward (g : TypeGraph) : Nat → SymbolId → SymbolId
  | 0, s => s
  | n + 1, s => match g.inner? s with
      | some e => inward g n e
      | none => s

/-- A symbol that is unbound, or bound to a type without elements and referent. -/
def Terminal (g : TypeGraph) (s : SymbolId) : Prop :=
  g.bound? s = none ∨ ∃ t, g.bound? s = some t ∧
    (g.kind? t = some .record ∨ g.kind? t = some .module ∨ g.kind? t = some .error)

/-- Symbols are only bound to types that exist. -/
def Closed (g : TypeGraph) : Prop := ∀ ⦃s t⦄, g.bound? s = some t → g.HasType t

theorem Closed.terminal (h : g.Closed) (hs : g.inner? s = none) : g.Terminal s := by
  cases hbound : g.bound? s with
  | none => exact .inl hbound
  | some t =>
    refine .inr ⟨t, hbound, ?_⟩
    obtain ⟨d, hd⟩ := (h hbound).exists_def?
    have hkind : g.kind? t = some d.kind := by rw [kind?, hd, Option.map_some]
    rw [inner?, hbound, Option.bind_some, part?, hkind, Option.bind_some] at hs
    rw [hkind]
    cases hk : d.kind with
    | record => exact .inl rfl
    | module => exact .inr (.inl rfl)
    | error => exact .inr (.inr rfl)
    | array | reference => rw [hk, TypeKind.part?] at hs; cases hs

/-- What holds of a graph in which no array or reference contains itself. -/
structure Acyclic (g : TypeGraph) : Prop where
  /-- going inwards ends, after no more steps than there are types -/
  ends : ∀ s, ∃ n ≤ g.types.size, g.Terminal (g.inward n s)
  /-- unification ends, and looking deeper would not make a difference to it -/
  unifies : ∀ (gs : Groups) (a b : SymbolId), ∃ r, gs.unify g a b = .ok r
  meets : ∀ a b depth, g.nestingDepth ≤ depth → g.meet depth a b = g.meet g.nestingDepth a b
  /-- so does the comparison of types -/
  compares : ∀ a b depth, g.nestingDepth ≤ depth → g.sameWithin depth a b = g.sameType a b

theorem Ranked.of_grows (h : g'.Ranked rank) (hg : g.Grows g') : g.Ranked rank :=
  fun _ _ _ hs ht => h (hg.bound hs) (hg.part? ht)

theorem Ranked.inward_terminal (h : g.Ranked rank) (hclosed : g.Closed) (s : SymbolId) :
    ∃ n ≤ g.height rank s, g.Terminal (g.inward n s) := by
  induction hn : g.height rank s using Nat.strong_induction_on generalizing s with
  | _ n ih =>
    cases hinner : g.inner? s with
    | none => exact ⟨0, Nat.zero_le n, hclosed.terminal hinner⟩
    | some e =>
      obtain ⟨t, ht, hpart⟩ := inner?_eq_some_iff.mp hinner
      have hlt := height_lt (h ht hpart) hpart
      obtain ⟨k, hk, hterminal⟩ := ih _ (hn ▸ hlt) e rfl
      refine ⟨k + 1, by omega, ?_⟩
      rwa [inward, hinner]

/-- A comparison that has come to an end does not go any deeper. -/
theorem meet_succ_of_ne_endless {depth : Nat} (h : g.meet depth a b ≠ .endless) :
    g.meet (depth + 1) a b = g.meet depth a b := by
  induction depth generalizing a b with
  | zero => exact absurd rfl h
  | succ depth ih =>
    rw [meet] at h
    rw [meet, meet]
    split
    · rfl
    next hne =>
      rw [if_neg hne] at h
      split
      · rfl
      · rfl
      · rfl
      next hx hy =>
        simp only [hx, hy] at h
        split
        · rfl
        next hxy =>
          rw [if_neg hxy] at h
          split
          next hk hk' =>
            simp only [hk, hk'] at h
            exact ih h
          next hk hk' =>
            simp only [hk, hk'] at h
            exact ih h
          · rfl

theorem Ranked.acyclic (h : g.Ranked rank) (hclosed : g.Closed) : g.Acyclic where
  ends s := by
    obtain ⟨n, hn, hterminal⟩ := h.inward_terminal hclosed s
    exact ⟨n, hn.trans height_le, hterminal⟩
  unifies gs a b := by
    have hne : g.meet g.nestingDepth a b ≠ .endless := meet_ne_endless h
    unfold Groups.unify
    split
    next => exact ⟨_, rfl⟩
    next => exact ⟨_, rfl⟩
    next => exact ⟨_, rfl⟩
    next => exact ⟨_, rfl⟩
    next hendless => exact absurd hendless hne
  meets a b depth hdepth := by
    induction depth, hdepth using Nat.le_induction with
    | base => rfl
    | succ depth hdepth ih =>
      rw [meet_succ_of_ne_endless (ih ▸ meet_ne_endless h), ih]
  compares a b depth hdepth := by
    have hdeep : g.height rank a < depth := (Nat.lt_succ_of_le height_le).trans_le hdepth
    rw [Bool.eq_iff_iff, sameType_iff h]
    exact ⟨same_of_sameWithin, sameWithin_of_same h.on trivial hdeep⟩

/-! Closed graphs -/

theorem Closed.newSymbol (h : g.Closed) (name : String) : (g.newSymbol name).2.Closed := by
  intro s t hs
  rw [bound?_newSymbol] at hs
  exact (grows_newSymbol name).hasType (h hs)

theorem Closed.newType (h : g.Closed) (d : TypeDef) : (g.newType d).2.Closed := by
  intro s t hs
  rw [bound?_newType] at hs
  split at hs
  · cases hs
    rw [HasType, types_newType, Array.size_push]
    exact Nat.lt_succ_self _
  · exact (grows_newType d).hasType (h hs)

theorem Closed.bindAll (h : g.Closed) (ht : g.HasType t) (ss : List SymbolId) :
    (g.bindAll t ss).1.Closed := by
  intro s v hs
  apply (grows_bindAll t ss).hasType
  rw [bound?_bindAll] at hs
  split at hs
  · cases hs
    exact ht
  · exact h hs

/-- A graph that has grown and is still closed. -/
structure Extends (g g' : TypeGraph) : Prop where
  grows : g.Grows g'
  closed : g.Closed → g'.Closed

theorem Extends.refl (g : TypeGraph) : g.Extends g := ⟨.refl g, id⟩

theorem Extends.trans (h : g.Extends g') (h' : g'.Extends g'') : g.Extends g'' :=
  ⟨h.grows.trans h'.grows, h'.closed ∘ h.closed⟩

end Binder.TypeGraph
