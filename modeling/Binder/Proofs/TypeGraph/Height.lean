import Binder.Proofs.TypeGraph.Binding
import Mathlib.Data.Finset.Card
import Mathlib.Data.Finset.Range

/-! Graphs in which no array or reference contains itself. Such a graph can be ranked so that the
part of a type ranks below every symbol bound to the type. Any ranking can be brought below the
number of types, which is why comparing two symbols never takes more levels than there are types. -/
namespace Binder

/-- The symbol of the elements of an array or of the referent of a reference. -/
def TypeKind.part? : TypeKind → Option SymbolId
  | .array elements _ => some elements
  | .reference referent => some referent
  | .record | .module | .error => none

namespace TypeGraph

variable {g g' : TypeGraph} {s a b e : SymbolId} {t v : TypeId} {rank : SymbolId → Nat}

def part? (g : TypeGraph) (t : TypeId) : Option SymbolId := (g.kind? t).bind TypeKind.part?

theorem part?_array {size : Option Nat} (h : g.kind? t = some (.array e size)) :
    g.part? t = some e := by
  simp [part?, h, TypeKind.part?]

theorem part?_reference (h : g.kind? t = some (.reference e)) : g.part? t = some e := by
  simp [part?, h, TypeKind.part?]

theorem part?_eq_some_iff :
    g.part? t = some e ↔
      (∃ size, g.kind? t = some (.array e size)) ∨ g.kind? t = some (.reference e) := by
  unfold part?
  cases g.kind? t with
  | none => simp
  | some k => cases k <;> simp [TypeKind.part?]

theorem HasType.of_part? (h : g.part? t = some e) : g.HasType t := by
  rcases part?_eq_some_iff.mp h with ⟨size, hk⟩ | hk <;>
  · obtain ⟨d, hd, -⟩ := Option.map_eq_some_iff.mp hk
    exact .of_def? hd

theorem Grows.part? (h : Grows g g') (hp : g.part? t = some e) : g'.part? t = some e := by
  rcases part?_eq_some_iff.mp hp with ⟨size, hk⟩ | hk
  · exact part?_array (h.kind? hk)
  · exact part?_reference (h.kind? hk)

/-- The part of a type ranks below the symbols that are bound to the type. -/
def Ranked (g : TypeGraph) (rank : SymbolId → Nat) : Prop :=
  ∀ ⦃s t e⦄, g.bound? s = some t → g.part? t = some e → rank e < rank s

theorem Ranked.newSymbol (h : g.Ranked rank) (name : String) :
    (g.newSymbol name).2.Ranked rank := by
  intro s t e hs he
  rw [bound?_newSymbol] at hs
  exact h hs he

theorem Ranked.newType (h : g.Ranked rank) {d : TypeDef} (hd : d.kind.part? = none) :
    (g.newType d).2.Ranked rank := by
  intro s t e hs he
  by_cases ht : t = ⟨g.types.size⟩
  · simp [part?, TypeGraph.kind?, def?_newType, ht, hd] at he
  · have hpart : g.part? t = some e := by
      rwa [part?, TypeGraph.kind?, def?_newType, if_neg ht] at he
    rw [bound?_newType] at hs
    split at hs
    · exact absurd (Option.some.inj hs).symm ht
    · exact h hs hpart

/-- How many types have a part that ranks below a symbol. -/
def height (g : TypeGraph) (rank : SymbolId → Nat) (s : SymbolId) : Nat :=
  ((Finset.range g.types.size).filter fun i =>
    ∃ e, g.part? ⟨i⟩ = some e ∧ rank e < rank s).card

theorem height_le : g.height rank s ≤ g.types.size := by
  have h := Finset.card_filter_le (Finset.range g.types.size) fun i =>
    ∃ e, g.part? ⟨i⟩ = some e ∧ rank e < rank s
  rwa [Finset.card_range] at h

theorem height_lt (hlt : rank e < rank s) (ht : g.part? t = some e) :
    g.height rank e < g.height rank s := by
  apply Finset.card_lt_card
  rw [Finset.ssubset_iff_of_subset]
  · refine ⟨t.index, ?_, ?_⟩
    · have hin : t.index < g.types.size := HasType.of_part? ht
      simp only [Finset.mem_filter, Finset.mem_range]
      exact ⟨hin, e, ht, hlt⟩
    · simp only [Finset.mem_filter, not_and, not_exists]
      rintro - e' he'
      rw [ht] at he'
      cases he'
      exact Nat.lt_irrefl _
  · intro i hi
    simp only [Finset.mem_filter] at hi ⊢
    obtain ⟨hin, e', he', hle⟩ := hi
    exact ⟨hin, e', he', hle.trans hlt⟩

/-! Comparing two symbols -/

theorem meet_ne_endless_of_height (h : g.Ranked rank) {depth : Nat}
    (hd : g.height rank a < depth) : g.meet depth a b ≠ .endless := by
  induction depth generalizing a b with
  | zero => omega
  | succ depth ih =>
    unfold meet
    split
    · simp
    · split
      · simp
      · simp
      · simp
      · next ha hb =>
        split
        · simp
        · split
          · next hk _ =>
            have hlt := height_lt (h ha (part?_array hk)) (part?_array hk)
            exact ih (by omega)
          · next hk _ =>
            have hlt := height_lt (h ha (part?_reference hk)) (part?_reference hk)
            exact ih (by omega)
          · simp

/-- In a ranked graph two symbols can always be compared. -/
theorem meet_ne_endless (h : g.Ranked rank) : g.meet g.nestingDepth a b ≠ .endless :=
  meet_ne_endless_of_height h (Nat.lt_succ_of_le height_le)

end TypeGraph
end Binder
