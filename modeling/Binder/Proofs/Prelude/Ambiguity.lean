import Binder.Proofs.Inference.Fitting
import Binder.Proofs.Prelude.Operators

/-! Primitive operators are never ambiguous. The overloads of an operator take one or two operands of
one builtin type and let none of them out. So the number of arguments tells how many operands there
are, any one argument tells their type, and no two overloads of an operator agree in both. -/
namespace Binder

variable {g : TypeGraph} {b : Builtin}

theorem Builtin.bound?_of_sameType (hg : Prelude.graph.Grows g) {x : SymbolId}
    (h : g.sameType b.symbol x) : g.bound? x = some b.type := by
  have hbound := b.bound?_symbol hg
  have hkind : g.kind? b.type = some .record := by
    obtain ⟨d, hd, -, hkind, -⟩ := b.exists_def? hg
    rw [TypeGraph.kind?, hd, Option.map_some, hkind]
  cases TypeGraph.same_of_sameWithin h with
  | refl => exact hbound
  | type hb hx => exact hx.trans (hb.symm.trans hbound)
  | array hb _ hk =>
    cases hb.symm.trans hbound
    cases hk.symm.trans hkind
  | reference hb _ hk =>
    cases hb.symm.trans hbound
    cases hk.symm.trans hkind

theorem Builtin.type_injective {a : Builtin} (h : a.type = b.type) : a = b :=
  symbol_injective (congrArg SymbolId.mk (TypeId.mk.inj h))

namespace Overload

variable {named : List (String × TypeId)} {positional : List TypeId} {parameters : List Parameter}
  {s s' : Signature} {a b : Builtin} {t : TypeId}

theorem Covered.length_eq (h : Covered g parameters positional)
    (hfallback : ∀ p ∈ parameters, p.fallback.isNone) : positional.length = parameters.length := by
  refine Nat.le_antisymm h.enough (Nat.le_of_not_lt fun hlt => ?_)
  have hlast := List.getElem?_eq_getElem hlt
  have hnone := hfallback _ (List.mem_of_getElem? hlast)
  have hsome := h.rest _ _ hlast le_rfl
  rw [Option.isNone_iff_eq_none.mp hnone] at hsome
  cases hsome

/-- Each named argument takes one parameter away. -/
theorem Placed.length_eq (h : Placed g parameters named [])
    (hnames : (parameters.map Parameter.name).Nodup) :
    parameters.length = named.length + (remaining parameters named).length := by
  let taken := parameters.filter fun p => p.name ∈ named.map Prod.fst
  have hperm : (taken.map Parameter.name).Perm (named.map Prod.fst) := by
    rw [List.perm_ext_iff_of_nodup (hnames.sublist (List.filter_sublist.map _)) h.distinct]
    intro name
    rw [List.mem_map]
    constructor
    · rintro ⟨p, hp, rfl⟩
      simpa using (List.mem_filter.mp hp).2
    · intro hname
      obtain ⟨argument, hargument, rfl⟩ := List.mem_map.mp hname
      obtain ⟨p, hp, hsame, -⟩ := h.typed argument hargument
      exact ⟨p, List.mem_filter.mpr ⟨hp, by simpa [hsame] using ⟨_, hargument⟩⟩, hsame⟩
  have hlength : taken.length = named.length := by simpa using hperm.length_eq
  have hsplit := List.length_eq_length_filter_add (l := parameters)
    fun p => decide (p.name ∈ named.map Prod.fst)
  rw [hsplit, ← hlength]
  congr 2
  exact List.filter_congr fun p _ => by simp

/-- A signature without fallbacks takes as many arguments as it has parameters. -/
theorem Fits.length_eq (h : Fits g named positional s)
    (hnames : (s.parameters.map Parameter.name).Nodup)
    (hfallback : ∀ p ∈ s.parameters, p.fallback.isNone) :
    s.parameters.length = named.length + positional.length := by
  have hrest : ∀ p ∈ remaining s.parameters named, p.fallback.isNone :=
    fun p hp => hfallback p (List.mem_filter.mp hp).1
  rw [h.1.length_eq hnames, h.2.length_eq hrest]

theorem Fits.exists_parameter (h : Fits g named positional s)
    (ht : t ∈ named.map Prod.snd ++ positional) :
    ∃ p ∈ s.parameters, g.sameType p.type (g.symbolOf t) := by
  rcases List.mem_append.mp ht with hnamed | hpositional
  · obtain ⟨argument, hargument, rfl⟩ := List.mem_map.mp hnamed
    obtain ⟨p, hp, -, hsame⟩ := h.1.typed argument hargument
    exact ⟨p, hp, hsame⟩
  · obtain ⟨i, hi⟩ := List.getElem?_of_mem hpositional
    have hlt := (List.getElem?_eq_some_iff.mp hi).1.trans_le h.2.enough
    have hp := List.getElem?_eq_getElem hlt
    exact ⟨_, (List.mem_filter.mp (List.mem_of_getElem? hp)).1, h.2.typed i _ t hp hi⟩

/-- One or more operands of one builtin type, each with a name of its own and without a fallback. -/
def Uniform (b : Builtin) (s : Signature) : Prop :=
  s.parameters.isEmpty = false ∧ (s.parameters.map Parameter.name).Nodup ∧
    ∀ p ∈ s.parameters, p.fallback.isNone ∧ p.type = b.symbol

instance : Decidable (Uniform b s) := inferInstanceAs (Decidable (_ ∧ _ ∧ _))

theorem Uniform.types_eq (h : Uniform b s) :
    s.parameters.map Parameter.type = List.replicate s.parameters.length b.symbol := by
  rw [List.eq_replicate_iff]
  refine ⟨List.length_map _, fun x hx => ?_⟩
  obtain ⟨p, hp, rfl⟩ := List.mem_map.mp hx
  exact (h.2.2 p hp).2

theorem Uniform.length_eq (h : Uniform b s) (hfits : Fits g named positional s) :
    s.parameters.length = named.length + positional.length :=
  hfits.length_eq h.2.1 fun p hp => (h.2.2 p hp).1

/-- Every argument is of the type of the operands. -/
theorem Uniform.bound? (hg : Prelude.graph.Grows g) (h : Uniform b s)
    (hfits : Fits g named positional s) (ht : t ∈ named.map Prod.snd ++ positional) :
    g.bound? (g.symbolOf t) = some b.type := by
  obtain ⟨p, hp, hsame⟩ := hfits.exists_parameter ht
  rw [(h.2.2 p hp).2] at hsame
  exact Builtin.bound?_of_sameType hg hsame

theorem Uniform.types_eq_of_fits (hg : Prelude.graph.Grows g) (h : Uniform a s)
    (h' : Uniform b s') (hfits : Fits g named positional s) (hfits' : Fits g named positional s') :
    s.parameters.map Parameter.type = s'.parameters.map Parameter.type := by
  have hlength := h.length_eq hfits
  obtain ⟨t, ht⟩ : ∃ t, t ∈ named.map Prod.snd ++ positional := by
    apply List.exists_mem_of_length_pos
    rw [List.length_append, List.length_map, ← hlength, List.length_pos_iff_ne_nil]
    exact List.isEmpty_eq_false_iff.mp h.1
  have htype := (h.bound? hg hfits ht).symm.trans (h'.bound? hg hfits' ht)
  have hsame : a = b := Builtin.type_injective (Option.some.inj htype)
  rw [h.types_eq, h'.types_eq, hlength, h'.length_eq hfits', hsame]

end Overload

theorem countP_le_one_of_pairwise {α : Type} {p : α → Bool} {l : List α}
    (h : l.Pairwise fun a b => p a → p b → False) : l.countP p ≤ 1 := by
  rw [List.countP_eq_length_filter]
  have hpairs := h.sublist (List.filter_sublist (p := p))
  match hl : l.filter p with
  | [] | [_] => simp
  | x :: y :: rest =>
    have hx : p x := (List.mem_filter.mp (hl ▸ List.mem_cons_self)).2
    have hy : p y := (List.mem_filter.mp (hl ▸ List.mem_cons_of_mem x List.mem_cons_self)).2
    rw [hl] at hpairs
    exact (List.rel_of_pairwise_cons hpairs List.mem_cons_self hx hy).elim

namespace Prelude

/-- The overloads of every operator take operands of one type each, and no two take the same. -/
theorem overloads_uniform : ∀ entry ∈ operators,
    (∀ s ∈ entry.2, ∃ b ∈ Builtin.all, Overload.Uniform b s) ∧
      (entry.2.map fun s => s.parameters.map Parameter.type).Nodup := by
  decide

/-- A value of the prelude is an operator, and its type has the overloads of the operator. -/
theorem exists_overloads {m : Member} (hm : .value m ∈ declarations) :
    ∃ t d, graph.bound? m.type = some t ∧ graph.def? t = some d ∧
      (m.name, d.signatures) ∈ operators := by
  rcases List.mem_append.mp hm with htype | hvalue
  · obtain ⟨b, -, hb⟩ := List.mem_map.mp htype
    cases hb
  · obtain ⟨⟨operator, i⟩, hoperator, heq⟩ := List.mem_map.mp hvalue
    cases heq
    have hi := List.mem_zipIdx_iff_getElem?.mp hoperator
    obtain ⟨hbound, hdef⟩ := typeOf?_operator hi
    exact ⟨_, _, hbound, hdef, List.mem_of_getElem? hi⟩

/-- At most one overload of an operator can be called with given arguments, whatever their types are
and however they are passed. So it does not matter in which order the overloads are listed. -/
theorem operators_unambiguous (hg : graph.Grows g) {m : Member} (hm : .value m ∈ declarations)
    (named : List (String × TypeId)) (positional : List TypeId) :
    ∃ d, g.typeOf? m.type = some d ∧ (m.name, d.signatures) ∈ operators ∧
      d.signatures.countP (Overload.accepts g · named positional) ≤ 1 ∧
      ∀ order, order.Perm d.signatures → Overload.select? g order named positional =
        Overload.select? g d.signatures named positional := by
  obtain ⟨t, d, hbound, hd, hmem⟩ := exists_overloads hm
  obtain ⟨huniform, hdistinct⟩ := overloads_uniform _ hmem
  have htypes : ∀ s ∈ d.signatures, ∀ s' ∈ d.signatures, Overload.accepts g s named positional →
      Overload.accepts g s' named positional →
      s.parameters.map Parameter.type = s'.parameters.map Parameter.type := by
    intro s hs s' hs' haccepts haccepts'
    obtain ⟨a, -, ha⟩ := huniform s hs
    obtain ⟨b, -, hb⟩ := huniform s' hs'
    rw [Overload.accepts_iff_fits ha.2.1] at haccepts
    rw [Overload.accepts_iff_fits hb.2.1] at haccepts'
    exact ha.types_eq_of_fits hg hb haccepts haccepts'
  refine ⟨d, ?_, hmem, ?_, fun order horder => ?_⟩
  · rw [TypeGraph.typeOf?, hg.bound hbound, Option.bind_some, hg.defs hd]
  · apply countP_le_one_of_pairwise
    refine (List.pairwise_map.mp hdistinct).imp_of_mem ?_
    intro s s' hs hs' hne haccepts haccepts'
    exact hne (htypes s hs s' hs' haccepts haccepts')
  · refine (List.find?_eq_find?_of_perm horder.symm ?_).symm
    rintro s ⟨hs, haccepts⟩ s' ⟨hs', haccepts'⟩
    exact List.inj_on_of_nodup_map hdistinct hs hs' (htypes s hs s' hs' haccepts haccepts')

/-- Minus with its right operand named and its left one not: the overloads may be listed backwards. -/
theorem operators_unambiguous_minus :
    let m : Member := ⟨"-", ⟨firstOperator + 1⟩, .value⟩
    ∃ d, graph.typeOf? m.type = some d ∧
      d.signatures.countP
        (Overload.accepts graph · [("right", Builtin.long.type)] [Builtin.long.type]) ≤ 1 ∧
      (Overload.select? graph d.signatures.reverse [("right", Builtin.long.type)]
        [Builtin.long.type]).map Signature.result = some Builtin.long.symbol := by
  intro m
  obtain ⟨d, hd, hmem, hone, horder⟩ := operators_unambiguous (.refl graph) (m := m) (by decide)
    [("right", Builtin.long.type)] [Builtin.long.type]
  refine ⟨d, hd, hone, ?_⟩
  rw [horder _ (List.reverse_perm _)]
  cases hd
  rfl

end Prelude
end Binder
