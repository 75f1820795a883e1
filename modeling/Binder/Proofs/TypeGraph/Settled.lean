import Binder.Prelude
import Binder.Proofs.Scope.Lookup
import Binder.Proofs.TypeGraph.Likeness

/-! Graphs in which only the symbols of values are still to be bound. All types are built, whatever
they mention is bound and is no value, and parts come before the symbols that are made of them.
Values may then be bound one by one to the types there are, and the graph stays ranked. -/
namespace Binder

/-- The symbols that a signature mentions. -/
def Signature.uses (s : Signature) : List SymbolId := s.result :: s.parameters.map Parameter.type

/-- The symbols that a type mentions, other than its own. -/
def TypeDef.uses (d : TypeDef) : List SymbolId :=
  d.kind.part?.toList ++ d.memberScope.tables.flatten.map Member.type ++
    d.typeScope.tables.flatten.map TypeName.symbol ++ d.signatures.flatMap Signature.uses ++
    d.members.map Member.type ++ d.container.toList

theorem Scope.mem_of_find? {α : Type} [Named α] {scope : Scope α} {name : String} {a : α}
    (h : scope.find? name = some a) : a ∈ scope.tables.flatten := by
  rw [find?_eq_findSome?] at h
  obtain ⟨entries, hentries, hfind⟩ := List.exists_of_findSome?_eq_some h
  exact List.mem_flatten.mpr ⟨entries, hentries, List.mem_of_find?_eq_some hfind⟩

namespace TypeDef

variable {d : TypeDef} {s : SymbolId} {name : String} {m : Member}

theorem mem_uses : s ∈ d.uses ↔ d.kind.part? = some s ∨
    (∃ m ∈ d.memberScope.tables.flatten, m.type = s) ∨
    (∃ entry ∈ d.typeScope.tables.flatten, entry.symbol = s) ∨
    (∃ signature ∈ d.signatures, s ∈ signature.uses) ∨ (∃ m ∈ d.members, m.type = s) ∨
    d.container = some s := by
  simp only [uses, List.mem_append, List.mem_map, List.mem_flatMap, Option.mem_toList, or_assoc]

theorem part_mem_uses (h : d.kind.part? = some s) : s ∈ d.uses := mem_uses.mpr (.inl h)

theorem entry_mem_uses (h : m ∈ d.memberScope.tables.flatten) : m.type ∈ d.uses :=
  mem_uses.mpr (.inr (.inl ⟨m, h, rfl⟩))

theorem member_mem_uses (h : d.findMember? name = some m) :
    m.type ∈ d.uses := entry_mem_uses (Scope.mem_of_find? h)

theorem name_mem_uses {entry : TypeName} (h : entry ∈ d.typeScope.tables.flatten) :
    entry.symbol ∈ d.uses := mem_uses.mpr (.inr (.inr (.inl ⟨entry, h, rfl⟩)))

theorem nested_mem_uses (h : d.findType? name = some s) : s ∈ d.uses := by
  obtain ⟨entry, hentry, rfl⟩ := Option.map_eq_some_iff.mp h
  exact name_mem_uses (Scope.mem_of_find? hentry)

theorem signature_mem_uses {signature : Signature} (hs : signature ∈ d.signatures)
    (h : s ∈ signature.uses) : s ∈ d.uses :=
  mem_uses.mpr (.inr (.inr (.inr (.inl ⟨signature, hs, h⟩))))

theorem listed_mem_uses (h : m ∈ d.members) : m.type ∈ d.uses :=
  mem_uses.mpr (.inr (.inr (.inr (.inr (.inl ⟨m, h, rfl⟩)))))

theorem container_mem_uses (h : d.container = some s) : s ∈ d.uses :=
  mem_uses.mpr (.inr (.inr (.inr (.inr (.inr h)))))

end TypeDef

namespace TypeGraph

/-- A graph of types over the prelude in which `V` are the symbols of values. Whatever a type mentions
is `known`, its own symbol is bound to it, and parts come before what is made of them. -/
structure Orderly (V : List SymbolId) (known : SymbolId → Prop) (g : TypeGraph) : Prop where
  prelude : Grows Prelude.graph g
  values : ∀ s ∈ V, Prelude.graph.symbols.size ≤ s.index ∧ g.HasSymbol s
  types : ∀ {s t}, g.bound? s = some t → g.HasType t
  own : ∀ {t d}, g.def? t = some d → g.bound? d.symbol = some t ∧ d.symbol ∉ V
  uses : ∀ {t d s}, g.def? t = some d → s ∈ d.uses → known s
  before : ∀ {s t e}, s ∉ V → g.bound? s = some t → g.part? t = some e → e.index < s.index
  error : ∀ {s}, s ∉ V → g.isError s → s = Prelude.error

/-- Only the symbols of values are to be bound. `clean` tells whether nothing was reported so far; if
so, nothing mentions the error type. -/
abbrev Settled (V : List SymbolId) (clean : Prop) (g : TypeGraph) : Prop :=
  g.Orderly V fun s => g.isBound s ∧ s ∉ V ∧ (clean → s ≠ Prelude.error)

variable {V : List SymbolId} {clean : Prop} {known known' : SymbolId → Prop} {g : TypeGraph}
  {a b e s : SymbolId} {t : TypeId} {d : TypeDef}

theorem exists_def_of_part? (h : g.part? t = some e) :
    ∃ d, g.def? t = some d ∧ d.kind.part? = some e := by
  obtain ⟨k, hk, he⟩ := Option.bind_eq_some_iff.mp h
  obtain ⟨d, hd, rfl⟩ := Option.map_eq_some_iff.mp hk
  exact ⟨d, hd, he⟩

namespace Orderly

variable (h : g.Orderly V known)
include h

theorem mono (hk : ∀ s, known s → known' s) : g.Orderly V known' :=
  { h with uses := fun hd hs => hk _ (h.uses hd hs) }

theorem notMem_of_prelude (hs : Prelude.graph.HasSymbol s) : s ∉ V := by
  intro hmem
  have hle := (h.values s hmem).1
  have hlt : s.index < Prelude.graph.symbols.size := hs
  omega

theorem error_bound : g.isBound Prelude.error :=
  h.prelude.isBound (by rfl)

theorem error_notMem : Prelude.error ∉ V :=
  h.notMem_of_prelude (by decide)

theorem builtin_bound (b : Builtin) : g.isBound b.symbol :=
  h.prelude.isBound (by cases b <;> rfl)

theorem newSymbol (name : String) : (g.newSymbol name).2.Orderly V known where
  prelude := h.prelude.trans (grows_newSymbol name)
  values s hs := ⟨(h.values s hs).1, (grows_newSymbol name).hasSymbol (h.values s hs).2⟩
  types hs := h.types (bound?_newSymbol name ▸ hs)
  own hd := ⟨(bound?_newSymbol name).trans (h.own hd).1, (h.own hd).2⟩
  uses hd hs := h.uses hd hs
  before hs hb he := h.before hs (bound?_newSymbol name ▸ hb) he
  error := by
    intro s hs herr
    refine h.error hs ?_
    simp only [isError, typeOf?, bound?_newSymbol] at herr ⊢
    exact herr

theorem newType (hown : g.isUnbound d.symbol) (hV : d.symbol ∉ V) (huses : ∀ s ∈ d.uses, known s)
    (hpart : ∀ e, d.kind.part? = some e → e.index < d.symbol.index) (hkind : d.kind ≠ .error) :
    (g.newType d).2.Orderly V known := by
  have hg : Grows g (g.newType d).2 := grows_newType d
  have hbound := bound?_newType_of_isUnbound hown
  have hnew : (g.newType d).2.def? ⟨g.types.size⟩ = some d := by
    rw [def?_newType, if_pos rfl]
  have hold : ∀ {t d'}, (g.newType d).2.def? t = some d' → t ≠ ⟨g.types.size⟩ →
      g.def? t = some d' := by
    intro t d' hd hne
    rwa [def?_newType, if_neg hne] at hd
  refine
    { prelude := h.prelude.trans hg
      values := fun s hs => ⟨(h.values s hs).1, hg.hasSymbol (h.values s hs).2⟩
      types := ?_, own := ?_, uses := ?_, before := ?_, error := ?_ }
  · intro s t hs
    rw [hbound] at hs
    split at hs
    · cases hs
      exact .of_def? hnew
    · exact hg.hasType (h.types hs)
  · intro t d' hd
    by_cases ht : t = ⟨g.types.size⟩
    · subst ht
      cases hnew.symm.trans hd
      exact ⟨by rw [hbound, if_pos rfl], hV⟩
    · have hd := hold hd ht
      exact ⟨hg.bound (h.own hd).1, (h.own hd).2⟩
  · intro t d' s hd hs
    by_cases ht : t = ⟨g.types.size⟩
    · subst ht
      cases hnew.symm.trans hd
      exact huses s hs
    · exact h.uses (hold hd ht) hs
  · intro s t e hs hb he
    obtain ⟨d', hd, hk⟩ := exists_def_of_part? he
    rw [hbound] at hb
    split at hb
    next heq =>
      cases hb
      cases hnew.symm.trans hd
      exact heq ▸ hpart e hk
    next =>
      have hne : t ≠ ⟨g.types.size⟩ := by
        rintro rfl
        exact absurd (h.types hb) (Nat.lt_irrefl g.types.size)
      refine h.before hs hb ?_
      simp [part?, kind?, hold hd hne, hk]
  · intro s hs herr
    by_cases heq : s = d.symbol
    · simp only [isError, typeOf?, hbound, heq, ↓reduceIte, Option.bind_some, hnew, Option.map_some,
        Option.getD_some, TypeDef.isError, decide_eq_true_eq] at herr
      exact absurd herr hkind
    · refine h.error hs ?_
      simp only [isError, typeOf?, hbound, if_neg heq] at herr ⊢
      cases hb : g.bound? s with
      | none => simp [hb] at herr
      | some t =>
        obtain ⟨d', hd⟩ := (h.types hb).exists_def?
        simpa [hb, hd, hg.defs hd] using herr

end Orderly

namespace Settled

variable (h : g.Settled V clean)
include h

theorem part (hp : g.part? t = some e) : g.isBound e ∧ e ∉ V := by
  obtain ⟨d, hd, he⟩ := exists_def_of_part? hp
  have huses := h.uses hd (TypeDef.part_mem_uses he)
  exact ⟨huses.1, huses.2.1⟩

/-- Values rank above everything else, and all other symbols in the order in which they were made. -/
theorem ranked : g.Ranked fun s => if s ∈ V then g.symbols.size else s.index := by
  intro s t e hs he
  obtain ⟨hbound, hnot⟩ := h.part he
  simp only [hnot, ↓reduceIte]
  split_ifs with hs'
  · obtain ⟨v, hv⟩ := isBound_iff.mp hbound
    exact HasSymbol.of_bound? hv
  · exact h.before hs' hs he

theorem grounded : g.Grounded fun s => g.isBound s where
  bound := by
    intro s hs
    obtain ⟨t, ht⟩ := isBound_iff.mp hs
    exact ⟨t, ht, h.types ht⟩
  parts _ _ hp := (h.part hp).1

/-- Two bound symbols are compared without meeting an unbound one. -/
theorem meet_bound {depth : Nat} (ha : g.isBound a) (hb : g.isBound b) :
    g.meet depth a b = .same ∨ g.meet depth a b = .clash ∨ g.meet depth a b = .endless := by
  induction depth generalizing a b with
  | zero => exact .inr (.inr rfl)
  | succ depth ih =>
    obtain ⟨t, ht⟩ := isBound_iff.mp ha
    obtain ⟨v, hv⟩ := isBound_iff.mp hb
    unfold meet
    split
    · exact .inl rfl
    · simp only [ht, hv]
      split
      · exact .inl rfl
      · split
        next hk hk' => exact ih (h.part (part?_array hk)).1 (h.part (part?_array hk')).1
        next hk hk' => exact ih (h.part (part?_reference hk)).1 (h.part (part?_reference hk')).1
        next => exact .inr (.inl rfl)

theorem bindAll (ht : g.HasType t) {ss : List SymbolId}
    (hss : ∀ s ∈ ss, s ∈ V) : (g.bindAll t ss).1.Settled V clean where
  prelude := h.prelude.trans (grows_bindAll t ss)
  values s hs := ⟨(h.values s hs).1, (grows_bindAll t ss).hasSymbol (h.values s hs).2⟩
  types := by
    intro s v hs
    rw [bound?_bindAll] at hs
    split at hs
    · cases hs
      exact (grows_bindAll t ss).hasType ht
    · exact (grows_bindAll t ss).hasType (h.types hs)
  own := by
    intro v d hd
    rw [def?_bindAll] at hd
    exact ⟨(grows_bindAll t ss).bound (h.own hd).1, (h.own hd).2⟩
  uses := by
    intro v d s hd hs
    rw [def?_bindAll] at hd
    obtain ⟨hbound, hrest⟩ := h.uses hd hs
    exact ⟨(grows_bindAll t ss).isBound hbound, hrest⟩
  before := by
    intro s v e hs hb he
    rw [bound?_bindAll, if_neg (fun hc => hs (hss s hc.1))] at hb
    simp only [part?, kind?_bindAll] at he
    exact h.before hs hb he
  error := by
    intro s hs herr
    refine h.error hs ?_
    have hb : (g.bindAll t ss).1.bound? s = g.bound? s := by
      rw [bound?_bindAll, if_neg (fun hc => hs (hss s hc.1))]
    have hd : (g.bindAll t ss).1.def? = g.def? := funext fun v => def?_bindAll ss
    simpa only [isError, typeOf?, hb, hd] using herr

end Settled
end TypeGraph
end Binder
