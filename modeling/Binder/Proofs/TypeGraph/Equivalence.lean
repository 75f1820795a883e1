import Binder.Prelude
import Binder.Proofs.TypeGraph.Acyclic
import Mathlib.Order.Lattice.Nat

/-! The comparison of types is an equivalence. Two symbols can be found to denote the same type for
three reasons: they are one symbol, they are bound to one type, or their parts denote the same type.
The reasons may differ from level to level, and wherever going inwards from a symbol comes to an end
they add up. -/
namespace Binder.TypeGraph

variable {g : TypeGraph} {a b c e s : SymbolId} {t : TypeId} {sizes : Option Nat → Option Nat → Prop}

namespace Alike

theorem symm (hsizes : ∀ {n m}, sizes n m → sizes m n) (h : Alike sizes g a b) :
    Alike sizes g b a := by
  induction h with
  | refl a => exact .refl a
  | type ha hb => exact .type hb ha
  | array ha hb hk hk' hn _ ih => exact .array hb ha hk' hk (hsizes hn) ih
  | reference ha hb hk hk' _ ih => exact .reference hb ha hk' hk ih

/-- Like types are alike to whatever the one of them is alike to. The middle symbol has one type, so
two reasons for which it is compared by its parts are about the same parts. -/
theorem trans (hsizes : ∀ {n m k}, sizes n m → sizes m k → sizes n k) (hab : Alike sizes g a b)
    (hbc : Alike sizes g b c) : Alike sizes g a c := by
  induction hab generalizing c with
  | refl => exact hbc
  | type ha hb =>
    cases hbc with
    | refl => exact .type ha hb
    | type hb' hc =>
      cases hb.symm.trans hb'
      exact .type ha hc
    | array hb' hc hk hk' hn hparts =>
      cases hb.symm.trans hb'
      exact .array ha hc hk hk' hn hparts
    | reference hb' hc hk hk' hparts =>
      cases hb.symm.trans hb'
      exact .reference ha hc hk hk' hparts
  | array ha hb hk hk' hn hparts ih =>
    cases hbc with
    | refl => exact .array ha hb hk hk' hn hparts
    | type hb' hc =>
      cases hb.symm.trans hb'
      exact .array ha hc hk hk' hn hparts
    | array hb' hc hl hl' hm hparts' =>
      cases hb.symm.trans hb'
      cases hk'.symm.trans hl
      exact .array ha hc hk hl' (hsizes hn hm) (ih hparts')
    | reference hb' hc hl hl' hparts' =>
      cases hb.symm.trans hb'
      cases hk'.symm.trans hl
  | reference ha hb hk hk' hparts ih =>
    cases hbc with
    | refl => exact .reference ha hb hk hk' hparts
    | type hb' hc =>
      cases hb.symm.trans hb'
      exact .reference ha hc hk hk' hparts
    | array hb' hc hl hl' hm hparts' =>
      cases hb.symm.trans hb'
      cases hk'.symm.trans hl
    | reference hb' hc hl hl' hparts' =>
      cases hb.symm.trans hb'
      cases hk'.symm.trans hl
      exact .reference ha hc hk hl' (ih hparts')

end Alike

/-- Going from an array to its elements and from a reference to its referent comes to an end. -/
def Ends (g : TypeGraph) (s : SymbolId) : Prop := ∃ n, g.inner? (g.inward n s) = none

theorem Ends.inner (h : g.Ends s) (he : g.inner? s = some e) : g.Ends e := by
  obtain ⟨n, hn⟩ := h
  cases n with
  | zero =>
    rw [inward, he] at hn
    cases hn
  | succ n =>
    rw [inward, he] at hn
    exact ⟨n, hn⟩

theorem Ends.of_bound? (h : g.Ends a) (ha : g.bound? a = some t) (hb : g.bound? b = some t) :
    g.Ends b := by
  have hinner : g.inner? b = g.inner? a := by rw [inner?, inner?, ha, hb]
  obtain ⟨n, hn⟩ := h
  cases n with
  | zero => exact ⟨0, hinner.trans hn⟩
  | succ n =>
    cases he : g.inner? a with
    | none => exact ⟨0, hinner.trans he⟩
    | some e =>
      rw [inward, he] at hn
      exact ⟨n + 1, by rwa [inward, hinner, he]⟩

/-- Symbols from which one comes to an end are ranked by how soon one does. -/
theorem exists_rankedOn_ends (g : TypeGraph) : ∃ rank, g.RankedOn g.Ends rank := by
  let rank (s : SymbolId) : Nat := sInf { n | g.inner? (g.inward n s) = none }
  refine ⟨rank, fun s t e hs ht he => ?_⟩
  have hinner : g.inner? s = some e := inner?_eq_some_iff.mpr ⟨t, ht, he⟩
  refine ⟨hs.inner hinner, ?_⟩
  have hend : g.inner? (g.inward (rank s) s) = none := Nat.sInf_mem hs
  cases hrank : rank s with
  | zero =>
    rw [hrank, inward, hinner] at hend
    cases hend
  | succ n =>
    rw [hrank, inward, hinner] at hend
    exact Nat.lt_succ_of_le (Nat.sInf_le hend)

theorem sameType_iff_of_ends (ha : g.Ends a) {depth : Nat} (hdepth : g.nestingDepth ≤ depth) :
    g.sameWithin depth a b = true ↔ g.Same a b := by
  obtain ⟨rank, hrank⟩ := g.exists_rankedOn_ends
  exact ⟨same_of_sameWithin,
    sameWithin_of_same hrank ha ((Nat.lt_succ_of_le height_le).trans_le hdepth)⟩

/-- On the symbols from which going inwards ends, the comparison of types is an equivalence that no
deeper look would change, and it does not distinguish a symbol from the own symbol of its type. -/
theorem sameType_equivalence (g : TypeGraph) :
    Equivalence (fun a b : { s : SymbolId // g.Ends s } => g.sameType a b = true) ∧
    (∀ a b t, g.Ends a → g.Ends b → g.bound? a = some t → g.bound? (g.symbolOf t) = some t →
      g.sameType (g.symbolOf t) b = g.sameType a b ∧
        g.sameType b (g.symbolOf t) = g.sameType b a) ∧
    ∀ a b depth, g.Ends a → g.nestingDepth ≤ depth → g.sameWithin depth a b = g.sameType a b := by
  have hiff : ∀ {a b : SymbolId}, g.Ends a → (g.sameType a b = true ↔ g.Same a b) :=
    fun ha => sameType_iff_of_ends ha le_rfl
  refine ⟨⟨fun a => ?_, ?_, ?_⟩, ?_, ?_⟩
  · exact (hiff a.2).mpr (.refl _)
  · intro a b hab
    exact (hiff b.2).mpr (((hiff a.2).mp hab).symm Eq.symm)
  · intro a b c hab hbc
    exact (hiff a.2).mpr (((hiff a.2).mp hab).trans Eq.trans ((hiff b.2).mp hbc))
  · intro a b t ha hb hbound hown
    have hsame : g.Same a (g.symbolOf t) := .type hbound hown
    have hown' : g.Ends (g.symbolOf t) := ha.of_bound? hbound hown
    constructor
    · rw [Bool.eq_iff_iff, hiff hown', hiff ha]
      exact ⟨hsame.trans Eq.trans, (hsame.symm Eq.symm).trans Eq.trans⟩
    · rw [Bool.eq_iff_iff, hiff hb, hiff hb]
      exact ⟨fun h => h.trans Eq.trans (hsame.symm Eq.symm), fun h => h.trans Eq.trans hsame⟩
  · intro a b depth ha hdepth
    rw [Bool.eq_iff_iff, sameType_iff_of_ends ha hdepth, hiff ha]

/-- The prelude with two references to arrays of three integers, and a value bound to the second. -/
def referencesToTriples : TypeGraph :=
  let (first, g) := Prelude.graph.newAnonymous (.array Builtin.int.symbol (some 3))
  let (_, g) := g.newAnonymous (.reference first)
  let (second, g) := g.newAnonymous (.array Builtin.int.symbol (some 3))
  let (reference, g) := g.newAnonymous (.reference second)
  let (value, g) := g.newSymbol ""
  g.assign value ((g.bound? reference).getD default)

/-- The value is compared with the first reference as the second one is, and the other way round. -/
theorem sameType_equivalence_triples :
    let g := referencesToTriples
    g.Ends ⟨30⟩ ∧ g.Ends ⟨33⟩ ∧ g.bound? ⟨33⟩ = g.bound? ⟨32⟩ ∧ g.bound? ⟨30⟩ ≠ g.bound? ⟨32⟩ ∧
      g.sameType ⟨30⟩ ⟨33⟩ = true ∧ g.sameType ⟨33⟩ ⟨30⟩ = true := by
  intro g
  obtain ⟨hequivalence, hown, -⟩ := sameType_equivalence g
  have hfirst : g.Ends ⟨30⟩ := ⟨2, by decide +kernel⟩
  have hvalue : g.Ends ⟨33⟩ := ⟨2, by decide +kernel⟩
  have hsame : g.sameType ⟨30⟩ ⟨33⟩ = true := by
    have hboth := hown ⟨33⟩ ⟨30⟩ ⟨32⟩ hvalue hfirst (by decide +kernel) (by decide +kernel)
    have hsecond : g.sameType ⟨30⟩ (g.symbolOf ⟨32⟩) = true := by decide +kernel
    exact hboth.2.symm.trans hsecond
  refine ⟨hfirst, hvalue, by decide +kernel, by decide +kernel, hsame, ?_⟩
  exact hequivalence.symm (x := ⟨⟨30⟩, hfirst⟩) (y := ⟨⟨33⟩, hvalue⟩) hsame

end Binder.TypeGraph
