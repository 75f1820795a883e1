import Binder.Unify
import Mathlib.Tactic.Common

/-! What the operations on a type graph do to the bindings of its symbols and to its types. Every
operation keeps the bindings and types that there were, so that a graph only ever grows. -/
namespace Binder.TypeGraph

variable {g g' g'' : TypeGraph} {s s' : SymbolId} {t t' : TypeId} {d : TypeDef}

def HasSymbol (g : TypeGraph) (s : SymbolId) : Prop := s.index < g.symbols.size

def HasType (g : TypeGraph) (t : TypeId) : Prop := t.index < g.types.size

instance : Decidable (g.HasSymbol s) := inferInstanceAs (Decidable (s.index < g.symbols.size))

instance : Decidable (g.HasType t) := inferInstanceAs (Decidable (t.index < g.types.size))

theorem HasSymbol.of_bound? (h : g.bound? s = some t) : g.HasSymbol s := by
  by_contra hout
  have hnone : g.symbols[s.index]? = none := Array.getElem?_eq_none (Nat.le_of_not_lt hout)
  simp [bound?, hnone] at h

theorem HasType.of_def? (h : g.def? t = some d) : g.HasType t :=
  (Array.getElem?_eq_some_iff.mp h).1

theorem HasType.exists_def? (h : g.HasType t) : ∃ d, g.def? t = some d :=
  ⟨_, Array.getElem?_eq_getElem h⟩

theorem isBound_iff : g.isBound s = true ↔ ∃ t, g.bound? s = some t := Option.isSome_iff_exists

theorem isBound_eq_false_iff : g.isBound s = false ↔ g.bound? s = none := by
  simp [isBound]

theorem isUnbound_iff : g.isUnbound s = true ↔ g.HasSymbol s ∧ g.bound? s = none := by
  unfold isUnbound bound? HasSymbol
  split
  next symbol hs =>
    obtain ⟨hlt, hget⟩ := Array.getElem?_eq_some_iff.mp hs
    simp [hlt, hget]
  next hs =>
    have hle : g.symbols.size ≤ s.index := Array.getElem?_eq_none_iff.mp hs
    simp only [Bool.false_eq_true, false_iff, not_and]
    omega

/-! Binding one symbol -/

@[simp] theorem types_assign : (g.assign s t).types = g.types := by
  unfold assign
  split <;> rfl

@[simp] theorem symbols_size_assign : (g.assign s t).symbols.size = g.symbols.size := by
  unfold assign
  split <;> simp

@[simp] theorem def?_assign : (g.assign s t).def? t' = g.def? t' := by
  simp [def?]

@[simp] theorem kind?_assign : (g.assign s t).kind? t' = g.kind? t' := by
  simp [kind?]

theorem bound?_assign (h : g.HasSymbol s) :
    (g.assign s t).bound? s' = if s' = s then some t else g.bound? s' := by
  have hs : s.index < g.symbols.size := h
  simp only [assign, hs, ↓reduceDIte, bound?]
  by_cases heq : s' = s
  · subst heq
    simp
  · have hne : s.index ≠ s'.index := by
      intro hi
      exact heq (by cases s; cases s'; simp_all)
    simp [hne, heq]

theorem isUnbound_assign (h : g.HasSymbol s) (hne : s' ≠ s) :
    (g.assign s t).isUnbound s' = g.isUnbound s' := by
  rw [Bool.eq_iff_iff, isUnbound_iff, isUnbound_iff]
  simp [HasSymbol, bound?_assign h, hne]

/-! Binding several symbols -/

section

variable (ss : List SymbolId)
include ss

@[simp] theorem types_bindAll : (g.bindAll t ss).1.types = g.types := by
  induction ss generalizing g with
  | nil => rfl
  | cons s rest ih =>
    unfold bindAll
    split
    · simp only [ih, types_assign]
    · exact ih

@[simp] theorem symbols_size_bindAll : (g.bindAll t ss).1.symbols.size = g.symbols.size := by
  induction ss generalizing g with
  | nil => rfl
  | cons s rest ih =>
    unfold bindAll
    split
    · simp only [ih, symbols_size_assign]
    · exact ih

@[simp] theorem def?_bindAll : (g.bindAll t ss).1.def? t' = g.def? t' := by
  simp [def?]

@[simp] theorem kind?_bindAll : (g.bindAll t ss).1.kind? t' = g.kind? t' := by
  simp [kind?]

/-- Exactly the unbound symbols of the list take the type. -/
theorem bound?_bindAll : (g.bindAll t ss).1.bound? s =
      if s ∈ ss ∧ g.isUnbound s then some t else g.bound? s := by
  induction ss generalizing g with
  | nil => simp [bindAll]
  | cons a rest ih =>
    unfold bindAll
    split
    next ha =>
      obtain ⟨hexists, hnone⟩ := isUnbound_iff.mp ha
      simp only [ih]
      by_cases heq : s = a
      · subst heq
        have hbound : (g.assign s t).bound? s = some t := by simp [bound?_assign hexists]
        simp [hbound, ha]
      · simp [isUnbound_assign hexists heq, bound?_assign hexists, heq]
    next ha =>
      rw [ih]
      by_cases heq : s = a
      · subst heq
        simp [ha]
      · simp [heq]

theorem mem_bindAll : s ∈ (g.bindAll t ss).2 ↔ s ∈ ss ∧ g.isUnbound s := by
  induction ss generalizing g with
  | nil => simp [bindAll]
  | cons a rest ih =>
    unfold bindAll
    split
    next ha =>
      obtain ⟨hexists, -⟩ := isUnbound_iff.mp ha
      simp only [List.mem_cons, ih]
      by_cases heq : s = a
      · subst heq
        simp [ha]
      · simp [isUnbound_assign hexists heq, heq]
    next ha =>
      rw [ih, List.mem_cons]
      by_cases heq : s = a
      · subst heq
        simp [ha]
      · simp [heq]

/-! Adding symbols and types -/

end

theorem bound?_newSymbol (name : String) : (g.newSymbol name).2.bound? s = g.bound? s := by
  simp only [newSymbol, bound?, Array.getElem?_push]
  by_cases h : s.index = g.symbols.size
  · simp [h]
  · simp [h]

@[simp] theorem def?_newSymbol (name : String) : (g.newSymbol name).2.def? t = g.def? t := rfl

@[simp] theorem symbols_size_newSymbol (name : String) :
    (g.newSymbol name).2.symbols.size = g.symbols.size + 1 := by
  simp [newSymbol]

@[simp] theorem newType_fst (d : TypeDef) : (g.newType d).1 = ⟨g.types.size⟩ := rfl

@[simp] theorem symbols_size_newType (d : TypeDef) :
    (g.newType d).2.symbols.size = g.symbols.size := by
  simp only [newType]
  split <;> simp

theorem types_newType (d : TypeDef) : (g.newType d).2.types = g.types.push d := by
  simp only [newType]
  split <;> simp

theorem def?_newType (d : TypeDef) :
    (g.newType d).2.def? t = if t = ⟨g.types.size⟩ then some d else g.def? t := by
  simp only [def?, types_newType, Array.getElem?_push]
  by_cases h : t = ⟨g.types.size⟩
  · simp [h]
  · have hne : t.index ≠ g.types.size := by
      intro hi
      exact h (by cases t; simp_all)
    simp [h, hne]

/-- A new type takes its own symbol if that is unbound, and no other symbol. -/
theorem bound?_newType (d : TypeDef) :
    (g.newType d).2.bound? s =
      if s = d.symbol ∧ g.isUnbound d.symbol then some ⟨g.types.size⟩ else g.bound? s := by
  simp only [newType]
  split
  next h =>
    have hexists : HasSymbol { g with types := g.types.push d } d.symbol := (isUnbound_iff.mp h).1
    rw [bound?_assign hexists]
    by_cases heq : s = d.symbol <;> simp [heq, h, bound?]
  next h => simp [h, bound?]

theorem bound?_newType_of_isUnbound {d : TypeDef} (h : g.isUnbound d.symbol) (s : SymbolId) :
    (g.newType d).2.bound? s = if s = d.symbol then some ⟨g.types.size⟩ else g.bound? s := by
  rw [bound?_newType]
  simp [h]

/-! Growth -/

/-- What is known in the first graph is known in the second. -/
structure Grows (g g' : TypeGraph) : Prop where
  bound : ∀ {s t}, g.bound? s = some t → g'.bound? s = some t
  defs : ∀ {t d}, g.def? t = some d → g'.def? t = some d
  symbols : g.symbols.size ≤ g'.symbols.size

theorem Grows.refl (g : TypeGraph) : Grows g g := ⟨id, id, Nat.le_refl _⟩

theorem Grows.trans (h : Grows g g') (h' : Grows g' g'') : Grows g g'' :=
  ⟨fun hb => h'.bound (h.bound hb), fun hd => h'.defs (h.defs hd), Nat.le_trans h.symbols h'.symbols⟩

theorem Grows.hasSymbol (h : Grows g g') (hs : g.HasSymbol s) : g'.HasSymbol s :=
  Nat.lt_of_lt_of_le hs h.symbols

theorem Grows.hasType (h : Grows g g') (ht : g.HasType t) : g'.HasType t := by
  obtain ⟨d, hd⟩ := ht.exists_def?
  exact .of_def? (h.defs hd)

theorem Grows.isBound (h : Grows g g') (hs : g.isBound s) : g'.isBound s := by
  obtain ⟨t, ht⟩ := isBound_iff.mp hs
  exact isBound_iff.mpr ⟨t, h.bound ht⟩

theorem Grows.kind? (h : Grows g g') {k : TypeKind} (hk : g.kind? t = some k) :
    g'.kind? t = some k := by
  obtain ⟨d, hd, rfl⟩ := Option.map_eq_some_iff.mp hk
  exact Option.map_eq_some_iff.mpr ⟨d, h.defs hd, rfl⟩

theorem grows_bindAll (t : TypeId) (ss : List SymbolId) : Grows g (g.bindAll t ss).1 where
  bound := by
    intro s v hs
    rw [bound?_bindAll, if_neg, hs]
    rintro ⟨-, hu⟩
    rw [(isUnbound_iff.mp hu).2] at hs
    cases hs
  defs hd := by simpa using hd
  symbols := by simp

theorem grows_newSymbol (name : String) : Grows g (g.newSymbol name).2 where
  bound hs := by rwa [bound?_newSymbol]
  defs hd := hd
  symbols := by simp

theorem grows_newType (d : TypeDef) : Grows g (g.newType d).2 where
  bound := by
    intro s v hs
    rw [bound?_newType, if_neg, hs]
    rintro ⟨rfl, hu⟩
    rw [(isUnbound_iff.mp hu).2] at hs
    cases hs
  defs := by
    intro t e ht
    rw [def?_newType, if_neg, ht]
    rintro rfl
    exact Nat.lt_irrefl _ (HasType.of_def? ht)
  symbols := by simp

/-! Names -/

def names (g : TypeGraph) : List String := g.symbols.toList.map Symbol.name

theorem length_names (g : TypeGraph) : g.names.length = g.symbols.size := by simp [names]

theorem nameOf_eq (g : TypeGraph) (s : SymbolId) : g.nameOf s = (g.names[s.index]?).getD "" := by
  rw [nameOf, names, List.getElem?_map, Array.getElem?_toList]

@[simp] theorem names_newSymbol (name : String) : (g.newSymbol name).2.names = g.names ++ [name] := by
  simp [names, newSymbol]

@[simp] theorem names_assign : (g.assign s t).names = g.names := by
  unfold assign
  split
  next hs =>
    have hin : s.index < (g.symbols.toList.map Symbol.name).length := by simpa using hs
    have hname : g.symbols[s.index].name = (g.symbols.toList.map Symbol.name)[s.index] := by simp
    simp only [names, Array.toList_set, List.map_set]
    rw [hname, List.set_getElem_self]
  next => rfl

@[simp] theorem names_bindAll (ss : List SymbolId) : (g.bindAll t ss).1.names = g.names := by
  induction ss generalizing g with
  | nil => rfl
  | cons s rest ih =>
    unfold bindAll
    split
    · simp only [ih, names_assign]
    · exact ih

theorem nameOf_newSymbol (g : TypeGraph) (name : String) (s : SymbolId) :
    (g.newSymbol name).2.nameOf s = if s.index = g.symbols.size then name else g.nameOf s := by
  simp only [nameOf, newSymbol, Array.getElem?_push]
  split <;> rfl

@[simp] theorem names_newType (d : TypeDef) : (g.newType d).2.names = g.names := by
  simp only [newType]
  split
  · rw [names_assign]
    rfl
  · rfl

theorem nameOf_eq_of_prefix (h : g.names <+: g'.names) (hs : g.HasSymbol s) :
    g'.nameOf s = g.nameOf s := by
  obtain ⟨new, hnew⟩ := h
  rw [nameOf_eq, nameOf_eq, ← hnew, List.getElem?_append_left (by rwa [length_names])]

end Binder.TypeGraph
