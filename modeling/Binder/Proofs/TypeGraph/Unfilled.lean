import Binder.Proofs.Module.Builder

/-! The graph of the prelude, and graphs that have nothing but unbound symbols besides. Modules start
with such a graph: all symbols of a module are made before any of its types. -/
namespace Binder

def Declaration.symbol : Declaration → SymbolId
  | .type entry => entry.symbol
  | .value member => member.type

namespace Prelude

variable {t : TypeId} {d : TypeDef}

theorem bound?_graph (s : SymbolId) :
    graph.bound? s = if s.index < graph.symbols.size then some ⟨s.index⟩ else none := by
  by_cases h : s.index < graph.symbols.size
  · have hall : ∀ i : Fin graph.symbols.size, graph.bound? ⟨i⟩ = some ⟨i⟩ := by decide +kernel
    rw [if_pos h]
    exact hall ⟨s.index, h⟩
  · rw [if_neg h]
    simp [TypeGraph.bound?, h]

/-- The types of the prelude have the symbols of their numbers and no parts, and they mention only
symbols that are made before the one of the error type. -/
theorem def?_graph (h : graph.def? t = some d) :
    d.symbol = ⟨t.index⟩ ∧ d.kind.part? = none ∧ (d.kind = .error → t.index = error.index) ∧
      ∀ s ∈ d.uses, s.index < error.index := by
  have hall : ∀ i : Fin graph.types.size, ∀ d ∈ graph.def? ⟨i⟩, d.symbol = ⟨i⟩ ∧
      d.kind.part? = none ∧ (d.kind = .error → (i : Nat) = error.index) ∧
      ∀ s ∈ d.uses, s.index < error.index := by decide +kernel
  exact hall ⟨t.index, TypeGraph.HasType.of_def? h⟩ d h

theorem bare (h : graph.def? t = some d) : d.members = [] ∧
    d.memberScope = .empty ∧ d.typeScope = .empty ∧ d.container = none := by
  have hall : ∀ i : Fin graph.types.size, ∀ d ∈ graph.def? ⟨i⟩, d.members = [] ∧
      d.memberScope.isEmpty ∧ d.typeScope.isEmpty ∧ d.container = none := by decide +kernel
  obtain ⟨hmembers, hmemberScope, htypeScope, hcontainer⟩ :=
    hall ⟨t.index, TypeGraph.HasType.of_def? h⟩ d h
  exact ⟨hmembers, Scope.isEmpty_iff_eq.mp hmemberScope, Scope.isEmpty_iff_eq.mp htypeScope, hcontainer⟩

theorem fallback_eq_none {signature : Signature} {p : Parameter}
    (h : graph.def? t = some d) (hs : signature ∈ d.signatures) (hp : p ∈ signature.parameters) :
    p.fallback = none := by
  have hall : ∀ i : Fin graph.types.size, ∀ d ∈ graph.def? ⟨i⟩, ∀ signature ∈ d.signatures,
      ∀ p ∈ signature.parameters, p.fallback.isNone := by decide +kernel
  exact Option.isNone_iff_eq_none.mp
    (hall ⟨t.index, TypeGraph.HasType.of_def? h⟩ d h signature hs p hp)

theorem symbol_lt_of_mem {d : Declaration} (h : d ∈ scope.tables.flatten) :
    d.symbol.index < error.index := by
  have hall : ∀ d ∈ declarations, d.symbol.index < error.index := by decide +kernel
  have hbase : (ScopeBuilder.freeze ⟨declarations, .empty⟩).1 = scope := rfl
  have hmem := ScopeBuilder.mem_entries_of_freeze (hbase ▸ h)
  exact hall d (by simpa [ScopeBuilder.entries, Scope.tables] using hmem)

theorem bound_of_lt {s : SymbolId} (h : s.index < error.index) :
    graph.HasSymbol s ∧ graph.isBound s ∧ s ≠ error := by
  have hlt : s.index < graph.symbols.size := Nat.lt_trans h (by decide)
  refine ⟨hlt, ?_, ?_⟩
  · rw [TypeGraph.isBound, bound?_graph, if_pos hlt]
    rfl
  · rintro rfl
    exact Nat.lt_irrefl _ h

end Prelude

namespace TypeGraph

variable {g : TypeGraph} {V : List SymbolId} {s : SymbolId}

/-- The graph of the prelude with more symbols, none of which is bound. -/
structure Unfilled (g : TypeGraph) : Prop where
  types : g.types = Prelude.graph.types
  bound : ∀ s, g.bound? s = Prelude.graph.bound? s
  size : Prelude.graph.symbols.size ≤ g.symbols.size

theorem unfilled_prelude : Prelude.graph.Unfilled := ⟨rfl, fun _ => rfl, Nat.le_refl _⟩

namespace Unfilled

theorem newSymbol (h : g.Unfilled) (name : String) : (g.newSymbol name).2.Unfilled where
  types := h.types
  bound s := (bound?_newSymbol name).trans (h.bound s)
  size := by
    rw [symbols_size_newSymbol]
    exact Nat.le_succ_of_le h.size

theorem def?_eq (h : g.Unfilled) (t : TypeId) : g.def? t = Prelude.graph.def? t := by
  rw [def?, def?, h.types]

theorem grows (h : g.Unfilled) : Grows Prelude.graph g where
  bound hs := (h.bound _).trans hs
  defs hd := (h.def?_eq _).trans hd
  symbols := h.size

theorem isUnbound (h : g.Unfilled) (hown : Prelude.graph.symbols.size ≤ s.index)
    (hs : g.HasSymbol s) : g.isUnbound s := by
  rw [isUnbound_iff, h.bound, Prelude.bound?_graph, if_neg (Nat.not_lt_of_le hown)]
  exact ⟨hs, rfl⟩

theorem orderly (h : g.Unfilled)
    (hV : ∀ s ∈ V, Prelude.graph.symbols.size ≤ s.index ∧ g.HasSymbol s) :
    g.Orderly V fun s => g.isBound s ∧ s ∉ V ∧ s ≠ Prelude.error := by
  have hnot : ∀ {s}, Prelude.graph.HasSymbol s → s ∉ V := fun hs hmem =>
    absurd (hV _ hmem).1 (Nat.not_le_of_lt hs)
  refine
    { prelude := h.grows
      values := hV
      types := ?_, own := ?_, uses := ?_, before := ?_, error := ?_ }
  · intro s t hs
    rw [h.bound, Prelude.bound?_graph] at hs
    split at hs
    next hlt =>
      cases hs
      rw [HasType, h.types]
      exact hlt
    next => cases hs
  · intro t d hd
    rw [h.def?_eq] at hd
    have hlt : t.index < Prelude.graph.symbols.size := HasType.of_def? hd
    obtain ⟨hsymbol, -⟩ := Prelude.def?_graph hd
    refine ⟨?_, hsymbol ▸ hnot hlt⟩
    rw [hsymbol, h.bound, Prelude.bound?_graph, if_pos hlt]
  · intro t d s hd hs
    rw [h.def?_eq] at hd
    obtain ⟨hsymbol, hbound, hne⟩ := Prelude.bound_of_lt ((Prelude.def?_graph hd).2.2.2 s hs)
    exact ⟨h.grows.isBound hbound, hnot hsymbol, hne⟩
  · intro s t e _ _ he
    obtain ⟨d, hd, hpart⟩ := exists_def_of_part? he
    rw [h.def?_eq] at hd
    rw [(Prelude.def?_graph hd).2.1] at hpart
    cases hpart
  · intro s _ herror
    rw [isError, typeOf?, h.bound, Prelude.bound?_graph] at herror
    split at herror
    next hlt =>
      rw [Option.bind_some, h.def?_eq] at herror
      cases hd : Prelude.graph.def? ⟨s.index⟩ with
      | none => simp [hd] at herror
      | some d =>
        simp only [hd, Option.map_some, Option.getD_some, TypeDef.isError,
          decide_eq_true_eq] at herror
        have hindex : s.index = Prelude.error.index := (Prelude.def?_graph hd).2.2.1 herror
        cases s
        exact congrArg SymbolId.mk hindex
    next => cases herror

end Unfilled
end TypeGraph
end Binder
