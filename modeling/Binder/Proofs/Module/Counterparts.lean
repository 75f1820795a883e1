import Binder.Proofs.Module.Furnishing
import Binder.Proofs.Module.Turns

/-! Counterparts in two orders of the same bindings. A value has its turn in either order, and what is
ascribed to it is resolved from contexts that hold the same types, apart from those that were made at
other turns. So the symbols and types that a turn makes in one order correspond, place by place, to
those that the turn of the same value makes in the other. -/
namespace Binder

open Binder.Tree (Expr Mark Node)

/-- What is bound in a graph stands for itself. -/
def Pairing.fixed (g : TypeGraph) : Pairing where
  symbol x y := y = x ∧ g.isBound x
  type t u := u = t ∧ g.HasType t

namespace Context

variable {i i' m m' r r' : Context} {bindings bindings' : List Expr} {x y : SymbolId} {t u : TypeId}
  {d : TypeDef}

namespace Aligned

theorem bound?_eq (h : Aligned i i') (hi : i.Furnished bindings) (hi' : i'.Furnished bindings')
    (x : SymbolId) : i'.graph.bound? x = i.graph.bound? x := by
  by_cases hx : x ∈ i.valueSymbols
  · rw [hi.unbound x hx, hi'.unbound x (h.valueSymbols ▸ hx)]
  · obtain ⟨_, _, _, _, hp⟩ := h.parallel
    rcases rel_cases (hp.graph.bound (Shift.same_symbol_iff.mpr ⟨rfl, hx⟩)) with
      ⟨hnone, hnone'⟩ | ⟨t, u, ht, hu, htu⟩
    · rw [hnone, hnone']
    · rw [ht, hu, Shift.same_type_iff.mp htu]

theorem nameOf_eq (h : Aligned i i') (hx : x ∉ i.valueSymbols) :
    i'.graph.nameOf x = i.graph.nameOf x := by
  obtain ⟨_, _, _, _, hp⟩ := h.parallel
  exact hp.graph.names (Shift.same_symbol_iff.mpr ⟨rfl, hx⟩)

theorem def?_rel (h : Aligned i i') (hi : i.Furnished bindings) (t : TypeId) :
    Option.Rel (Pairing.fixed i.graph).Defs (i.graph.def? t) (i'.graph.def? t) := by
  obtain ⟨_, _, _, _, hp⟩ := h.parallel
  have hsettled := hi.resolvable.toStanding.settled
  rcases rel_cases (hp.graph.def? (Shift.same_type_iff.mpr (rfl : t = t))) with
    ⟨hd, hd'⟩ | ⟨d, d', hd, hd', hdefs⟩
  · rw [hd, hd']
    exact .none
  · rw [hd, hd']
    refine .some (hdefs.imp ?_ ?_)
    · intro y hy
      exact ⟨(Shift.same_symbol_iff.mp hy).1, TypeGraph.isBound_iff.mpr ⟨t, (hsettled.own hd).1⟩⟩
    · intro x y hx hy
      exact ⟨(Shift.same_symbol_iff.mp hy).1, (hsettled.uses hd hx).1⟩

theorem own (h : Aligned i i') (hx : x ∉ i.valueSymbols) (ht : i.graph.bound? x = some t) :
    ∃ d, i.graph.def? t = some d ∧ d.symbol = x := by
  obtain ⟨_, _, _, _, hp⟩ := h.parallel
  exact hp.graph.own (Shift.same_symbol_iff.mpr ⟨rfl, hx⟩) ht

theorem anonymous (h : Aligned i i') (hd : i.graph.def? t = some d) (hpart : d.kind.part?.isSome) :
    i.graph.HasSymbol d.symbol ∧ i.graph.nameOf d.symbol = "" := by
  obtain ⟨_, _, _, _, hp⟩ := h.parallel
  exact hp.graph.anonymous (Shift.same_type_iff.mpr rfl) hd hpart

end Aligned

/-- Contexts in which the same value has its turn in two orders of the same bindings. -/
structure Met (bindings bindings' : List Expr) (i i' m m' : Context) : Prop where
  aligned : Aligned i i'
  furnished : i.Furnished bindings
  furnished' : i'.Furnished bindings'
  infers : Infers i m
  infers' : Infers i' m'
  resolvable : m.Resolvable i.valueSymbols []
  resolvable' : m'.Resolvable i.valueSymbols []
  clean : m.diagnostics = [] ∧ m'.diagnostics = []
  folded : m.foldingFaults = [] ∧ m'.foldingFaults = []

namespace Met

variable {g : TypeGraph}

theorem notMem_of_isBound (h : Met bindings bindings' i i' m m') (hx : i.graph.isBound x) :
    x ∉ i.valueSymbols := by
  intro hmem
  rw [TypeGraph.isBound, h.furnished.unbound x hmem] at hx
  cases hx

theorem isBound' (h : Met bindings bindings' i i' m m') (hx : i.graph.isBound x) :
    i'.graph.isBound x := by
  rwa [TypeGraph.isBound, h.aligned.bound?_eq h.furnished h.furnished']

theorem hasSymbol (h : Met bindings bindings' i i' m m') (hx : i.graph.isBound x) :
    m.graph.HasSymbol x ∧ m'.graph.HasSymbol x := by
  obtain ⟨t, ht⟩ := TypeGraph.isBound_iff.mp hx
  obtain ⟨t', ht'⟩ := TypeGraph.isBound_iff.mp (h.isBound' hx)
  exact ⟨.of_bound? (h.infers.graph.bound ht), .of_bound? (h.infers'.graph.bound ht')⟩

/-- What corresponds at a turn: what was bound before all turns stands for itself, and what the turn
makes in one order stands for what it makes in the other. -/
def shift (h : Met bindings bindings' i i' m m') : Shift where
  symbols := ⟨fun k => i.graph.isBound ⟨k⟩, m.graph.symbols.size, m'.graph.symbols.size⟩
  types := ⟨fun k => i.graph.HasType ⟨k⟩, m.graph.types.size, m'.graph.types.size⟩
  builders := ⟨fun _ => False, m.builders.size, m'.builders.size⟩
  values := i.valueSymbols
  values' := i.valueSymbols
  fallbacks := m.fallbacks
  fallbacks' := m'.fallbacks
  apart := by
    intro j k hjk
    rcases hjk with ⟨hold, -, -, rfl⟩ | ⟨hj, hk, -⟩
    · exact ⟨h.notMem_of_isBound hold, h.notMem_of_isBound hold⟩
    · exact ⟨fun hmem => absurd (h.resolvable.graph.values _ hmem).2 (Nat.not_lt.mpr hj),
        fun hmem => absurd (h.resolvable'.graph.values _ hmem).2 (Nat.not_lt.mpr hk)⟩
  error := by
    have herror := h.furnished.resolvable.graph.error_bound
    obtain ⟨hm, hm'⟩ := h.hasSymbol herror
    exact .inl ⟨herror, hm, hm', rfl⟩

theorem symbol_iff (h : Met bindings bindings' i i' m m') : h.shift.pairing.symbol x y ↔
    (y = x ∧ i.graph.isBound x) ∨ h.shift.symbols.Level x.index y.index := by
  obtain ⟨j⟩ := x
  obtain ⟨k⟩ := y
  refine or_congr_left ⟨?_, ?_⟩
  · rintro ⟨hold, -, -, heq⟩
    exact ⟨congrArg SymbolId.mk heq, hold⟩
  · rintro ⟨heq, hold⟩
    obtain ⟨hm, hm'⟩ := h.hasSymbol hold
    cases heq
    exact ⟨hold, hm, hm', rfl⟩

theorem hasType (h : Met bindings bindings' i i' m m') (ht : i.graph.HasType t) :
    i'.graph.HasType t ∧ m.graph.HasType t ∧ m'.graph.HasType t := by
  obtain ⟨d, hd⟩ := ht.exists_def?
  have hdefs := h.aligned.def?_rel h.furnished t
  rw [hd] at hdefs
  rcases rel_cases hdefs with ⟨hnone, -⟩ | ⟨_, d', -, hd', -⟩
  · cases hnone
  · exact ⟨.of_def? hd', .of_def? (h.infers.graph.defs hd), .of_def? (h.infers'.graph.defs hd')⟩

theorem type_iff (h : Met bindings bindings' i i' m m') : h.shift.pairing.type t u ↔
    (u = t ∧ i.graph.HasType t) ∨ h.shift.types.Level t.index u.index := by
  obtain ⟨j⟩ := t
  obtain ⟨k⟩ := u
  refine or_congr_left ⟨?_, ?_⟩
  · rintro ⟨hold, -, -, heq⟩
    exact ⟨congrArg TypeId.mk heq, hold⟩
  · rintro ⟨heq, hold⟩
    obtain ⟨-, hm, hm'⟩ := h.hasType hold
    cases heq
    exact ⟨hold, hm, hm', rfl⟩

theorem nameOf_eq_of_le (h : g.symbols.size ≤ x.index) : g.nameOf x = "" := by
  rw [TypeGraph.nameOf, Array.getElem?_eq_none h]
  rfl

theorem bound?_eq_none_of_le (h : g.symbols.size ≤ x.index) : g.bound? x = none := by
  rw [TypeGraph.bound?, Array.getElem?_eq_none h]
  rfl

variable (h : Met bindings bindings' i i' m m')
include h

theorem graphs : h.shift.Graphs m.graph m'.graph where
  level := ⟨Nat.le_refl _, Nat.le_refl _, Nat.add_comm ..⟩
  names := by
    intro x y hxy
    rcases h.symbol_iff.mp hxy with ⟨rfl, hx⟩ | ⟨hx, hy, -⟩
    · obtain ⟨t, ht⟩ := TypeGraph.isBound_iff.mp hx
      obtain ⟨t', ht'⟩ := TypeGraph.isBound_iff.mp (h.isBound' hx)
      rw [TypeGraph.nameOf_eq_of_prefix h.infers.names (.of_bound? ht),
        TypeGraph.nameOf_eq_of_prefix h.infers'.names (.of_bound? ht'),
        h.aligned.nameOf_eq (h.notMem_of_isBound hx)]
    · rw [nameOf_eq_of_le hx, nameOf_eq_of_le hy]
  bound := by
    intro x y hxy
    rcases h.symbol_iff.mp hxy with ⟨rfl, hx⟩ | ⟨hx, hy, -⟩
    · obtain ⟨t, ht⟩ := TypeGraph.isBound_iff.mp hx
      have ht' := (h.aligned.bound?_eq h.furnished h.furnished' y).trans ht
      rw [h.infers.graph.bound ht, h.infers'.graph.bound ht']
      exact .some (h.type_iff.mpr (.inl ⟨rfl, h.furnished.resolvable.graph.types ht⟩))
    · rw [bound?_eq_none_of_le hx, bound?_eq_none_of_le hy]
      exact .none
  types := by
    refine ⟨⟨Nat.le_refl _, Nat.le_refl _, Nat.add_comm ..⟩, ?_⟩
    intro j k hjk
    have hrel : h.shift.pairing.type ⟨j⟩ ⟨k⟩ := hjk
    rcases h.type_iff.mp hrel with ⟨heq, ht⟩ | ⟨hj, hk, -⟩
    · cases heq
      obtain ⟨d, hd⟩ := ht.exists_def?
      have hdefs := h.aligned.def?_rel h.furnished ⟨j⟩
      rw [hd] at hdefs
      rcases rel_cases hdefs with ⟨hnone, -⟩ | ⟨_, d', heq, hd', hdefs⟩
      · cases hnone
      · cases heq
        rw [show m.graph.types[j]? = some d from h.infers.graph.defs hd,
          show m'.graph.types[j]? = some d' from h.infers'.graph.defs hd']
        have hold : ∀ {x y}, (Pairing.fixed i.graph).symbol x y → h.shift.pairing.symbol x y :=
          fun hxy => h.symbol_iff.mpr (.inl hxy)
        exact .some (hdefs.imp hold fun _ => hold)
    · rw [Array.getElem?_eq_none hj, Array.getElem?_eq_none hk]
      exact .none
  own := by
    intro x y t hxy ht
    rcases h.symbol_iff.mp hxy with ⟨rfl, hx⟩ | ⟨hx, -, -⟩
    · obtain ⟨t', ht'⟩ := TypeGraph.isBound_iff.mp hx
      cases ht.symm.trans (h.infers.graph.bound ht')
      obtain ⟨d, hd, hsymbol⟩ := h.aligned.own (h.notMem_of_isBound hx) ht'
      exact ⟨d, h.infers.graph.defs hd, hsymbol⟩
    · rw [bound?_eq_none_of_le hx] at ht
      cases ht
  anonymous := by
    intro t u d htu hd hpart
    rcases h.type_iff.mp htu with ⟨rfl, ht⟩ | ⟨ht, -, -⟩
    · obtain ⟨d', hd'⟩ := ht.exists_def?
      cases hd.symm.trans (h.infers.graph.defs hd')
      obtain ⟨hsymbol, hname⟩ := h.aligned.anonymous hd' hpart
      refine ⟨h.infers.graph.hasSymbol hsymbol, ?_⟩
      rw [TypeGraph.nameOf_eq_of_prefix h.infers.names hsymbol, hname]
    · exact absurd (TypeGraph.HasType.of_def? hd) (Nat.not_lt.mpr ht)

theorem parallel : Parallel h.shift m m' where
  graph := h.graphs
  builders := by
    refine ⟨⟨Nat.le_refl _, Nat.le_refl _, Nat.add_comm ..⟩, ?_⟩
    rintro j k (⟨hold, -⟩ | ⟨hj, hk, -⟩)
    · exact hold.elim
    · rw [Array.getElem?_eq_none hj, Array.getElem?_eq_none hk]
      exact .none
  nesting := by
    intro j b n hb hn
    exact h.resolvable.forest.later (i := ⟨j⟩) (nestedIn_of_mem hb hn)
  builderOf := by
    have hfresh : ∀ {c : Context} {x}, c.Resolvable i.valueSymbols [] → c.graph.symbols.size ≤ x.index →
        c.builderOf? x = none := by
      intro c x hc hx
      by_contra hsome
      obtain ⟨id, hid⟩ := Option.ne_none_iff_exists'.mp hsome
      obtain ⟨b, hb, rfl⟩ := Build.getElem?_of_builderOf? hid
      exact absurd (hc.builder hb).2.2.2 (Nat.not_lt.mpr hx)
    intro x y hxy hnone
    rcases h.symbol_iff.mp hxy with ⟨rfl, hx⟩ | ⟨hx, hy, -⟩
    · obtain ⟨t, ht⟩ := TypeGraph.isBound_iff.mp hx
      obtain ⟨d, hd⟩ := (h.furnished.resolvable.graph.types ht).exists_def?
      rw [TypeGraph.typeOf?, h.infers.graph.bound ht, Option.bind_some, h.infers.graph.defs hd] at hnone
      cases hnone
    · rw [hfresh h.resolvable hx, hfresh h.resolvable' hy]
      exact .none
  scope name := by
    obtain ⟨_, _, _, _, hp⟩ := h.aligned.parallel
    have hfind : ∀ {i m : Context}, i.Tabled → Infers i m → m.find? name = i.find? name := by
      intro i m hi hm
      rw [Context.find?, Context.find?, hm.root, hi.root]
    have hscope := hp.scope name
    have hknown : ∀ {entry}, i.find? name = some (.type entry) → i.Known i.valueSymbols entry.symbol :=
      h.furnished.resolvable.scope
    rw [hfind h.aligned.tabled h.infers, hfind h.aligned.tabled' h.infers']
    generalize i.find? name = d at hscope hknown
    generalize i'.find? name = d' at hscope
    cases hscope with
    | none => exact .none
    | some hd =>
      cases hd with
      | value n n' => exact .some (.value n n')
      | type hn =>
        have hbound := h.furnished.resolvable.toStanding.isBound (hknown rfl)
        exact .some (.type ⟨hn.name,
          h.symbol_iff.mpr (.inl ⟨(Shift.same_symbol_iff.mp hn.symbol).1, hbound⟩)⟩)
  fallbacks := ⟨[], [], (List.append_nil _).symm, (List.append_nil _).symm, .nil⟩
  quiet := ⟨h.resolvable.quiet, h.resolvable'.quiet⟩
  folded := h.folded
  clean := iff_of_true h.clean.1 h.clean.2

theorem ascribed {a a' : Expr} (herase : a'.erase = a.erase)
    (hsize : Build.Unsized a.preorder) (hr : Build.resolveType none a m = .ok x r)
    (hr' : Build.resolveType none a' m' = .ok y r') :
    Parallel h.shift r r' ∧ h.shift.pairing.symbol x y :=
  (Build.resolveType_inStep a herase hsize .none).at_end h.parallel hr hr'

theorem readies {v v' : ModuleValue} (hv : v ∈ i.values)
    (hshape : v'.definition.shape = v.definition.shape) (hr : Readies v m r)
    (hr' : Readies v' m' r') : Parallel h.shift r r' := by
  obtain ⟨-, -, hascription, -⟩ := Definition.shape_eq_iff.mp hshape
  cases hr with
  | bare hnone =>
    cases hr' with
    | bare => exact h.parallel
    | ascribed ha' =>
      rw [hnone, ha'] at hascription
      cases hascription
  | @ascribed a _ _ ha hresolve =>
    cases hr' with
    | bare hnone =>
      rw [hnone, ha] at hascription
      cases hascription
    | @ascribed a' _ _ ha' hresolve' =>
      rw [ha, ha'] at hascription
      have herase : a'.erase = a.erase := Option.some.inj hascription
      exact (h.ascribed herase (h.aligned.unsized v hv a ha) hresolve hresolve').1

end Met
end Context
end Binder
