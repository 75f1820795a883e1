import Binder.Proofs.TypeGraph.Height
import Mathlib.Data.List.Pairwise

/-! Groups of symbols. The lists of groups stay disjoint, so that each symbol has one group, and the
states that the operations of unification lead to refer to nothing outside their graph. -/
namespace Binder

/-- A comparison that stops short of two types stops at symbols that are still to be bound. -/
def TypeGraph.Meeting.Open (g : TypeGraph) : TypeGraph.Meeting → Prop
  | .same | .clash | .endless => True
  | .binds s type => g.isUnbound s ∧ g.HasType type
  | .joins a b => g.isUnbound a ∧ g.isUnbound b

/-- To bind a symbol that may be bound is to bind a list of one. -/
theorem TypeGraph.bind_eq {g g' : TypeGraph} {s : SymbolId} {type : TypeId}
    (h : g.bind s type = .ok g') : g' = (g.bindAll type [s]).1 := by
  unfold TypeGraph.bind at h
  split at h
  · cases h
  next hs =>
    cases h
    simp only [bindAll]
    split
    · rfl
    next hnot =>
      have hout : ¬ s.index < g.symbols.size := fun hlt =>
        hnot (isUnbound_iff.mpr ⟨hlt, by simpa [isBound] using hs⟩)
      rw [assign, dif_neg hout]

namespace Groups

variable {g g' : TypeGraph} {gs gs' : Groups} {a b s t v x : SymbolId} {group : List SymbolId}

theorem mem_groupOf_self (gs : Groups) (s : SymbolId) : s ∈ gs.groupOf s := by
  unfold groupOf
  cases h : gs.groups.find? fun group => s ∈ group with
  | none => simp
  | some group => simpa using List.find?_some h

theorem groupOf_cases (gs : Groups) (s : SymbolId) :
    gs.groupOf s ∈ gs.groups ∨ gs.groupOf s = [s] ∧ ∀ group ∈ gs.groups, s ∉ group := by
  unfold groupOf
  cases h : gs.groups.find? fun group => s ∈ group with
  | none =>
    right
    refine ⟨rfl, ?_⟩
    intro group hgroup
    simpa using List.find?_eq_none.mp h group hgroup
  | some group => exact .inl (List.mem_of_find?_eq_some h)

theorem mem_groupOf_cases (h : x ∈ gs.groupOf s) : gs.groupOf s ∈ gs.groups ∨ x = s := by
  refine (gs.groupOf_cases s).imp_right fun hsingle => ?_
  rwa [hsingle.1, List.mem_singleton] at h

/-- Different lists have no symbol in common. -/
def Disjoint (gs : Groups) : Prop := gs.groups.Pairwise List.Disjoint

theorem groupOf_eq (h : gs.Disjoint) (hgroup : group ∈ gs.groups)
    (hs : s ∈ group) : gs.groupOf s = group := by
  rcases gs.groupOf_cases s with hmem | ⟨-, hnone⟩
  · by_contra hne
    have : Std.Symm (@List.Disjoint SymbolId) := ⟨fun _ _ => List.Disjoint.symm⟩
    have hdis : (gs.groupOf s).Disjoint group := List.Pairwise.forall h hmem hgroup hne
    exact hdis (gs.mem_groupOf_self s) hs
  · exact absurd hs (hnone group hgroup)

theorem mem_join_groups (h : b ∉ gs.groupOf a) :
    group ∈ (gs.join a b).groups ↔
      group = gs.groupOf a ++ gs.groupOf b ∨ group ∈ gs.groups ∧ a ∉ group ∧ b ∉ group := by
  simp [join, h]

theorem join_eq_self (h : b ∈ gs.groupOf a) : gs.join a b = gs := by
  simp [join, h]

theorem disjoint_groupOf (h : gs.Disjoint) (hgroup : group ∈ gs.groups)
    (hs : s ∉ group) : (gs.groupOf s).Disjoint group := by
  intro x hx hxg
  rcases mem_groupOf_cases hx with hmem | rfl
  · have hsame : gs.groupOf s = group :=
      (groupOf_eq h hmem hx).symm.trans (groupOf_eq h hgroup hxg)
    exact hs (hsame ▸ gs.mem_groupOf_self s)
  · exact hs hxg

theorem disjoint_join (h : gs.Disjoint) (a b : SymbolId) : (gs.join a b).Disjoint := by
  by_cases hb : b ∈ gs.groupOf a
  · rwa [join_eq_self hb]
  · simp only [Disjoint, join, hb, ↓reduceIte, List.pairwise_cons]
    constructor
    · intro group hgroup
      simp only [List.mem_filter, decide_eq_true_eq] at hgroup
      obtain ⟨hmem, hna, hnb⟩ := hgroup
      rw [List.disjoint_append_left]
      exact ⟨disjoint_groupOf h hmem hna, disjoint_groupOf h hmem hnb⟩
    · exact h.filter _

@[simp] theorem groups_spread (gs : Groups) (g : TypeGraph) (type : TypeId) (ss : List SymbolId) :
    (gs.spread g type ss).2.groups = gs.groups := rfl

theorem fst_spread (gs : Groups) (g : TypeGraph) (type : TypeId) (ss : List SymbolId) :
    (gs.spread g type ss).1 = (g.bindAll type ss).1 := rfl

/-- Nothing refers to a symbol or a type that does not exist, and no symbol is in two groups. -/
structure Wellformed (g : TypeGraph) (gs : Groups) : Prop where
  bound : ∀ {s type}, g.bound? s = some type → g.HasType type
  parts : ∀ {type e}, g.part? type = some e → g.HasSymbol e
  members : ∀ group ∈ gs.groups, ∀ s ∈ group, g.HasSymbol s
  disjoint : gs.Disjoint

namespace Wellformed

theorem groupOf_hasSymbol (h : Wellformed g gs) (hs : g.HasSymbol s) :
    ∀ m ∈ gs.groupOf s, g.HasSymbol m := by
  intro m hm
  rcases mem_groupOf_cases hm with hmem | rfl
  · exact h.members _ hmem m hm
  · exact hs

theorem bindAll (h : Wellformed g gs) {type : TypeId} (ht : g.HasType type) (ss : List SymbolId) :
    Wellformed (g.bindAll type ss).1 gs where
  bound := by
    intro s v hs
    rw [TypeGraph.bound?_bindAll] at hs
    simp only [TypeGraph.HasType, TypeGraph.types_bindAll]
    split at hs
    · cases hs
      exact ht
    · exact h.bound hs
  parts := by
    intro v e hv
    simp only [TypeGraph.part?, TypeGraph.kind?_bindAll] at hv
    simpa [TypeGraph.HasSymbol] using h.parts hv
  members := by
    intro group hgroup m hm
    simpa [TypeGraph.HasSymbol] using h.members group hgroup m hm
  disjoint := h.disjoint

theorem spread (h : Wellformed g gs) {type : TypeId} (ht : g.HasType type) (ss : List SymbolId) :
    Wellformed (gs.spread g type ss).1 (gs.spread g type ss).2 :=
  have hall := h.bindAll ht ss
  ⟨hall.bound, hall.parts, hall.members, hall.disjoint⟩

theorem join (h : Wellformed g gs) (ha : g.HasSymbol a) (hb : g.HasSymbol b) :
    Wellformed g (gs.join a b) where
  bound := h.bound
  parts := h.parts
  members := by
    intro group hgroup m hm
    by_cases hin : b ∈ gs.groupOf a
    · rw [join_eq_self hin] at hgroup
      exact h.members group hgroup m hm
    · rcases (mem_join_groups hin).mp hgroup with rfl | ⟨hold, -, -⟩
      · rcases List.mem_append.mp hm with hm | hm
        · exact h.groupOf_hasSymbol ha m hm
        · exact h.groupOf_hasSymbol hb m hm
      · exact h.members group hold m hm
  disjoint := disjoint_join h.disjoint a b

end Wellformed

theorem open_meet (h : gs.Wellformed g) {depth : Nat} (ht : g.HasSymbol t) (hv : g.HasSymbol v) :
    (g.meet depth t v).Open g := by
  induction depth generalizing t v with
  | zero => trivial
  | succ depth ih =>
    unfold TypeGraph.meet
    split
    · trivial
    · split
      next x hbt hbv => exact ⟨TypeGraph.isUnbound_iff.mpr ⟨hv, hbv⟩, h.bound hbt⟩
      next y hbt hbv => exact ⟨TypeGraph.isUnbound_iff.mpr ⟨ht, hbt⟩, h.bound hbv⟩
      next hbt hbv =>
        exact ⟨TypeGraph.isUnbound_iff.mpr ⟨ht, hbt⟩, TypeGraph.isUnbound_iff.mpr ⟨hv, hbv⟩⟩
      next x y _ _ =>
        split
        · trivial
        · split
          next hx hy =>
            exact ih (h.parts (TypeGraph.part?_array hx)) (h.parts (TypeGraph.part?_array hy))
          next hx hy =>
            exact ih (h.parts (TypeGraph.part?_reference hx))
              (h.parts (TypeGraph.part?_reference hy))
          next => trivial

/-- The states of a graph and its groups that come about when symbols and types are added, symbols
are bound from outside, and the operations of unification are used. -/
inductive Reachable : TypeGraph → Groups → Prop
  | start {g : TypeGraph} : Wellformed g .empty → Reachable g .empty
  | newSymbol {g : TypeGraph} {gs : Groups} (name : String) :
      Reachable g gs → Reachable (g.newSymbol name).2 gs
  | newType {g : TypeGraph} {gs : Groups} (d : TypeDef) : Reachable g gs →
      (∀ e, d.kind.part? = some e → g.HasSymbol e) → Reachable (g.newType d).2 gs
  | bind {g g' : TypeGraph} {gs : Groups} {s : SymbolId} {type : TypeId} :
      Reachable g gs → g.HasType type → g.bind s type = .ok g' → Reachable g' gs
  | unify {g g' : TypeGraph} {gs gs' : Groups} {t v : SymbolId} {unified : Bool} :
      Reachable g gs → g.HasSymbol t → g.HasSymbol v →
      gs.unify g t v = .ok (unified, g', gs') → Reachable g' gs'
  | bindType {g g' : TypeGraph} {gs gs' : Groups} {s : SymbolId} {type : TypeId} :
      Reachable g gs → g.HasType type → gs.bindType g s type = .ok (g', gs') → Reachable g' gs'
  | settleBound {g : TypeGraph} {gs : Groups} (s : SymbolId) :
      Reachable g gs → Reachable (gs.settleBound g s).1 (gs.settleBound g s).2
  | takeSettled {g : TypeGraph} {gs : Groups} : Reachable g gs → Reachable g gs.takeSettled.2

namespace Wellformed

variable {type : TypeId}

variable (h : Wellformed g gs)
include h

theorem newSymbol (name : String) : Wellformed (g.newSymbol name).2 gs where
  bound := by
    intro s type hs
    rw [TypeGraph.bound?_newSymbol] at hs
    exact h.bound hs
  parts := fun hp => (TypeGraph.grows_newSymbol name).hasSymbol (h.parts hp)
  members := fun group hgroup s hs =>
    (TypeGraph.grows_newSymbol name).hasSymbol (h.members group hgroup s hs)
  disjoint := h.disjoint

theorem newType {d : TypeDef}
    (hd : ∀ e, d.kind.part? = some e → g.HasSymbol e) : Wellformed (g.newType d).2 gs where
  bound := by
    intro s type hs
    rw [TypeGraph.bound?_newType] at hs
    split at hs
    · cases hs
      simp [TypeGraph.HasType, TypeGraph.types_newType]
    · exact (TypeGraph.grows_newType d).hasType (h.bound hs)
  parts := by
    intro type e hp
    apply (TypeGraph.grows_newType d).hasSymbol
    rw [TypeGraph.part?, TypeGraph.kind?, TypeGraph.def?_newType] at hp
    split at hp
    · exact hd e (by simpa using hp)
    · exact h.parts hp
  members := fun group hgroup s hs =>
    (TypeGraph.grows_newType d).hasSymbol (h.members group hgroup s hs)
  disjoint := h.disjoint

theorem unify (ht : g.HasSymbol t) (hv : g.HasSymbol v) {unified : Bool}
    (hu : gs.unify g t v = .ok (unified, g', gs')) : Wellformed g' gs' := by
  have hopen : (g.meet g.nestingDepth t v).Open g := open_meet h ht hv
  unfold Groups.unify at hu
  split at hu
  next => cases hu; exact h
  next => cases hu; exact h
  next s type hm =>
    rw [hm] at hopen
    simp only [Except.ok.injEq, Prod.mk.injEq] at hu
    have hspread := h.spread hopen.2 (s :: gs.groupOf s)
    rwa [hu.2] at hspread
  next x y hm =>
    rw [hm] at hopen
    cases hu
    exact h.join (TypeGraph.isUnbound_iff.mp hopen.1).1 (TypeGraph.isUnbound_iff.mp hopen.2).1
  next => cases hu

theorem bindType (ht : g.HasType type)
    (hb : gs.bindType g s type = .ok (g', gs')) : Wellformed g' gs' := by
  unfold Groups.bindType at hb
  split at hb
  · cases hb
  · simp only [Except.ok.injEq] at hb
    have hspread := h.spread ht (s :: gs.groupOf s)
    rwa [hb] at hspread

theorem settleBound (s : SymbolId) : Wellformed (gs.settleBound g s).1 (gs.settleBound g s).2 := by
  unfold Groups.settleBound
  split
  next type hs => exact h.spread (h.bound hs) _
  next => exact h

end Wellformed

theorem Reachable.wellformed (h : Reachable g gs) : Wellformed g gs := by
  induction h with
  | start h => exact h
  | newSymbol name _ ih => exact ih.newSymbol name
  | newType d _ hd ih => exact ih.newType hd
  | bind _ ht hb ih => exact TypeGraph.bind_eq hb ▸ ih.bindAll ht _
  | unify _ ht hv hu ih => exact ih.unify ht hv hu
  | bindType _ ht hb ih => exact ih.bindType ht hb
  | settleBound s _ ih => exact ih.settleBound s
  | takeSettled _ ih => exact ⟨ih.bound, ih.parts, ih.members, ih.disjoint⟩

end Groups
end Binder
