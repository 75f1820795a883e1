import Binder.Proofs.Module.Counterparts
import Binder.Proofs.TypeGraph.Twins
import Mathlib.Algebra.BigOperators.Group.List.Basic

/-! Two runs over the values of a module in different orders. If one of them reports nothing, neither does
the other, and then the graphs at their ends are twins: the types that were made before the values had
their turns are in both graphs, and those that the turn of a value has made are found where the same
value has its turn in the other run. -/
namespace Binder

open Binder.Tree (Expr)

namespace Context

variable {i i' f f' m m' r r' n q c c' : Context} {bindings bindings' : List Expr}
  {v v' w w' : ModuleValue} {x y : SymbolId} {t u : TypeId} {g g' : TypeGraph} {p : Pairing}
  {V : List SymbolId} {σ : Shift}

theorem Tabled.nodup_names (h : i.Tabled) : (i.values.map fun v => v.definition.name).Nodup := by
  have hnames := h.names
  rw [declarations, List.map_append, List.map_map, List.map_map] at hnames
  have heq : (i.values.map fun v => v.definition.name) =
      i.values.map (Declaration.name ∘ fun v => .value v.member) := by
    apply List.map_congr_left
    intro v hv
    show v.definition.name = v.member.name
    rw [h.members v hv]
    rfl
  rw [heq]
  exact (List.nodup_append.mp hnames).2.1

theorem Aligned.exists_partner (h : Aligned i i') (hv : v ∈ i.values) :
    ∃ v' ∈ i'.values, v'.definition.shape = v.definition.shape := by
  have hmem := h.shapes.mem_iff.mpr (List.mem_map_of_mem (f := fun v => v.definition.shape) hv)
  exact List.mem_map.mp hmem

theorem Aligned.exists_partner' (h : Aligned i i') (hv' : v' ∈ i'.values) :
    ∃ v ∈ i.values, v'.definition.shape = v.definition.shape := by
  have hmem := h.shapes.mem_iff.mp (List.mem_map_of_mem (f := fun v => v.definition.shape) hv')
  obtain ⟨v, hv, hshape⟩ := List.mem_map.mp hmem
  exact ⟨v, hv, hshape.symm⟩

theorem hasType_of_progresses (h : Progresses c c') (ht : c'.graph.HasType t) : c.graph.HasType t := by
  obtain ⟨s, hadvances, rfl⟩ := h
  have ht : t.index < s.graph.types.size := ht
  rwa [hadvances.types] at ht

theorem exists_of_mem_right {α β : Type} {R : α → β → Prop} {l : List α} {l' : List β} {b : β}
    (h : List.Forall₂ R l l') (hb : b ∈ l') : ∃ a ∈ l, R a b := by
  induction h with
  | nil => cases hb
  | cons hab _ ih =>
    rcases List.mem_cons.mp hb with rfl | hb
    · exact ⟨_, List.mem_cons_self, hab⟩
    · obtain ⟨a, ha, hR⟩ := ih hb
      exact ⟨a, List.mem_cons_of_mem _ ha, hR⟩

namespace Values.At

theorem clean (h : At i f v m r) (hf : f.diagnostics = []) : m.diagnostics = [] ∧ r.diagnostics = [] :=
  ⟨(h.resolves.infers.trans h.later).clean hf, h.later.clean hf⟩

theorem resolvable_turn (h : At i f v m r) : m.Resolvable i.valueSymbols [] := by
  obtain ⟨_, hvaluing⟩ := h.valuing
  exact hvaluing.resolvable

end Values.At

/-- The same value has its turn in two orders and is made ready. -/
structure Partners (i i' : Context) (v v' : ModuleValue) (m m' r r' : Context) : Prop where
  shape : v'.definition.shape = v.definition.shape
  turn : i.Turn v m
  turn' : i'.Turn v' m'
  readies : Readies v m r
  readies' : Readies v' m' r'

theorem Partners.symm (h : Partners i i' v v' m m' r r') : Partners i' i v' v m' m r' r :=
  ⟨h.shape.symm, h.turn', h.turn, h.readies', h.readies⟩

/-- Two runs over the same values in different orders, of which one reports nothing. -/
structure Rearranged (bindings bindings' : List Expr) (i i' f f' : Context) : Prop where
  aligned : Aligned i i'
  aligned' : Aligned i' i
  self : Aligned i i
  self' : Aligned i' i'
  values : Values bindings i f
  values' : Values bindings' i' f'
  clean : f.diagnostics = []
  clean' : i'.diagnostics = []

namespace Rearranged

variable (h : Rearranged bindings bindings' i i' f f')
include h

theorem folded : f.foldingFaults = [] ∧ ∀ {v m}, i.Turn v m → m.foldingFaults = [] := by
  obtain ⟨_, _, _, _, hparallel⟩ := h.self.parallel
  obtain ⟨hend, hturns⟩ := h.values.induction (P := fun _ m => m.foldingFaults = [])
    hparallel.folded.1 fun {before v after m r n} _ ht hat _ hprogresses hm => by
      have hclean := (hat.clean h.clean).1
      have hmet : Met bindings bindings i i m m :=
        { aligned := h.self, furnished := h.values.furnished, furnished' := h.values.furnished
          infers := hat.infers, infers' := hat.infers, resolvable := hat.resolvable_turn
          resolvable' := hat.resolvable_turn, clean := ⟨hclean, hclean⟩, folded := ⟨hm, hm⟩ }
      obtain ⟨s, -, rfl⟩ := hprogresses
      exact (hmet.readies ht.mem rfl hat.readies hat.readies).folded.1
  refine ⟨hend, ?_⟩
  rintro v m ⟨before, after, hvalues, hm⟩
  exact hturns hvalues hm

/-- The turns of a value in both orders, if the second run has reported nothing so far. -/
theorem met_of_clean (ht : i.Turn v m)
    (hat' : Values.At i' f' v' m' r') (hclean' : m'.diagnostics = []) (hfolded' : m'.foldingFaults = []) :
    Met bindings bindings' i i' m m' := by
  obtain ⟨r, hat⟩ := h.values.exists_at ht
  exact
    { aligned := h.aligned, furnished := h.values.furnished, furnished' := h.values'.furnished
      infers := hat.infers, infers' := hat'.infers, resolvable := hat.resolvable_turn
      resolvable' := h.aligned.valueSymbols ▸ hat'.resolvable_turn
      clean := ⟨(hat.clean h.clean).1, hclean'⟩, folded := ⟨h.folded.2 ht, hfolded'⟩ }

theorem exists_opposite (ht' : i'.Turn v' m') :
    ∃ v m r, v ∈ i.values ∧ v'.definition.shape = v.definition.shape ∧ i.Turn v m ∧
      Values.At i f v m r := by
  obtain ⟨v, hv, hshape⟩ := h.aligned.exists_partner' ht'.mem
  obtain ⟨m, ht⟩ := h.values.exists_turn hv
  obtain ⟨r, hat⟩ := h.values.exists_at ht
  exact ⟨v, m, r, hv, hshape, ht, hat⟩

theorem clean_folded' : (f'.diagnostics = [] ∧ f'.foldingFaults = []) ∧
      ∀ {v' m'}, i'.Turn v' m' → m'.diagnostics = [] ∧ m'.foldingFaults = [] := by
  obtain ⟨_, _, _, _, hparallel⟩ := h.aligned.parallel
  obtain ⟨hend, hturns⟩ := h.values'.induction
    (P := fun _ m' => m'.diagnostics = [] ∧ m'.foldingFaults = []) ⟨h.clean', hparallel.folded.2⟩
    fun {before v' after m' r' n'} _ ht' hat' _ hprogresses hm' => by
      obtain ⟨v, m, r, -, hshape, ht, hat⟩ := h.exists_opposite ht'
      have hmet := h.met_of_clean ht hat' hm'.1 hm'.2
      have hready := hmet.readies ht.mem hshape hat.readies hat'.readies
      obtain ⟨s, -, rfl⟩ := hprogresses
      exact ⟨hready.clean.mp (hat.clean h.clean).2, hready.folded.2⟩
  refine ⟨hend, ?_⟩
  rintro v' m' ⟨before, after, hvalues, hm'⟩
  exact hturns hvalues hm'

theorem met (ht : i.Turn v m) (ht' : i'.Turn v' m') : Met bindings bindings' i i' m m' := by
  obtain ⟨r', hat'⟩ := h.values'.exists_at ht'
  obtain ⟨hclean', hfolded'⟩ := h.clean_folded'.2 ht'
  exact h.met_of_clean ht hat' hclean' hfolded'

theorem exists_partners (hv : v ∈ i.values) :
    ∃ v' m m' r r', v' ∈ i'.values ∧ Partners i i' v v' m m' r r' := by
  obtain ⟨v', hv', hshape⟩ := h.aligned.exists_partner hv
  obtain ⟨m, ht⟩ := h.values.exists_turn hv
  obtain ⟨m', ht'⟩ := h.values'.exists_turn hv'
  obtain ⟨r, hat⟩ := h.values.exists_at ht
  obtain ⟨r', hat'⟩ := h.values'.exists_at ht'
  exact ⟨v', m, m', r, r', hv', hshape, ht, ht', hat.readies, hat'.readies⟩

end Rearranged

/-- What corresponds in two orders of the same values: what was bound before stands for itself, values
stand for the values with the same definition, and what is made at the turn of a value stands for what
is made at the turn of its partner. -/
def counterpart (i i' : Context) : Pairing where
  symbol x y := (y = x ∧ i.graph.isBound x) ∨
    (∃ v ∈ i.values, ∃ v' ∈ i'.values, v'.definition.shape = v.definition.shape ∧
      v.member.type = x ∧ v'.member.type = y) ∨
    ∃ v v' m m' r r', Partners i i' v v' m m' r r' ∧ m.graph.symbols.size ≤ x.index ∧
      x.index + m'.graph.symbols.size = y.index + m.graph.symbols.size ∧ r.graph.isBound x
  type t u := (u = t ∧ i.graph.HasType t) ∨
    ∃ v v' m m' r r', Partners i i' v v' m m' r r' ∧ m.graph.types.size ≤ t.index ∧
      t.index + m'.graph.types.size = u.index + m.graph.types.size ∧ r.graph.HasType t

/-- Two contexts on the way to the ends of two runs, in which some of what corresponds is seen. -/
structure Glimpse (p : Pairing) (V : List SymbolId) (f f' : Context) (σ : Shift) (c c' : Context) :
    Prop where
  graphs : σ.Graphs c.graph c'.graph
  infers : Infers c f
  infers' : Infers c' f'
  settled : c.graph.Settled V (c.diagnostics = [])
  settled' : c'.graph.Settled V (c'.diagnostics = [])
  symbols : ∀ {x y}, σ.pairing.symbol x y → c.graph.isBound x → p.symbol x y
  types : ∀ {t u}, σ.pairing.type t u → c.graph.HasType t → p.type t u
  apart : ∀ {x y}, σ.pairing.symbol x y → x ∉ V ∧ y ∉ V

namespace Glimpse

theorem defs (h : Glimpse p V f f' σ c c') (htu : σ.pairing.type t u) (ht : c.graph.HasType t) :
    ∃ d d', c.graph.def? t = some d ∧ c'.graph.def? u = some d' ∧ σ.pairing.Defs d d' ∧
      p.Defs d d' := by
  obtain ⟨d, hd⟩ := ht.exists_def?
  rcases rel_cases (h.graphs.def? htu) with ⟨hnone, -⟩ | ⟨d₁, d', hd₁, hd', hdefs⟩
  · cases hd.symm.trans hnone
  · cases hd.symm.trans hd₁
    refine ⟨d, d', hd, hd', hdefs, hdefs.imp ?_ ?_⟩
    · exact fun hy => h.symbols hy (TypeGraph.isBound_iff.mpr ⟨t, (h.settled.own hd).1⟩)
    · exact fun hx hxy => h.symbols hxy (h.settled.uses hd hx).1

theorem bound (h : Glimpse p V f f' σ c c') (hxy : σ.pairing.symbol x y) (hx : c.graph.isBound x) :
    ∃ t u, c.graph.bound? x = some t ∧ c'.graph.bound? y = some u ∧ σ.pairing.type t u ∧ p.type t u := by
  obtain ⟨t, ht⟩ := TypeGraph.isBound_iff.mp hx
  rcases rel_cases (h.graphs.bound hxy) with ⟨hnone, -⟩ | ⟨t₁, u, ht₁, hu, htu⟩
  · cases ht.symm.trans hnone
  · cases ht.symm.trans ht₁
    exact ⟨t, u, ht, hu, htu, h.types htu (h.settled.types ht)⟩

end Glimpse

namespace Rearranged

variable (h : Rearranged bindings bindings' i i' f f')
include h

theorem glimpse_start : ∃ σ, Glimpse (counterpart i i') i.valueSymbols f f' σ i i' ∧
      (∀ {x}, i.graph.isBound x → σ.pairing.symbol x x) ∧ ∀ t, σ.pairing.type t t := by
  obtain ⟨symbols, types, hvalues, hsymbols, hparallel⟩ := h.aligned.parallel
  have hrun := Values.run_infers (fun _ hv => hv) (h.values.furnished.valuing h.values.once) h.values.run
  have hrun' := Values.run_infers (fun _ hv => hv) (h.values'.furnished.valuing h.values'.once)
    h.values'.run
  refine ⟨Shift.same i.valueSymbols symbols types hvalues hsymbols, ?_, ?_, ?_⟩
  · exact
      { graphs := hparallel.graph
        infers := hrun.1
        infers' := hrun'.1
        settled := h.values.furnished.resolvable.toStanding.settled
        settled' := h.aligned.valueSymbols ▸ h.values'.furnished.resolvable.toStanding.settled
        symbols := fun hxy hx => .inl ⟨(Shift.same_symbol_iff.mp hxy).1, hx⟩
        types := fun htu ht => .inl ⟨Shift.same_type_iff.mp htu, ht⟩
        apart := by
          intro x y hxy
          obtain ⟨rfl, hx⟩ := Shift.same_symbol_iff.mp hxy
          exact ⟨hx, hx⟩ }
  · intro x hx
    refine Shift.same_symbol_iff.mpr ⟨rfl, fun hmem => ?_⟩
    rw [TypeGraph.isBound, h.values.furnished.unbound x hmem] at hx
    cases hx
  · exact fun t => Shift.same_type_iff.mpr rfl

theorem glimpse_turn (hp : Partners i i' v v' m m' r r') :
    Glimpse (counterpart i i') i.valueSymbols f f' (h.met hp.turn hp.turn').shift r r' := by
  have hmet := h.met hp.turn hp.turn'
  have hready := hmet.readies hp.turn.mem hp.shape hp.readies hp.readies'
  obtain ⟨r₁, hat⟩ := h.values.exists_at hp.turn
  obtain ⟨r₁', hat'⟩ := h.values'.exists_at hp.turn'
  cases hp.readies.unique hat.readies
  cases hp.readies'.unique hat'.readies
  exact
    { graphs := hready.graph
      infers := hat.later
      infers' := hat'.later
      settled := hat.resolvable.toStanding.settled
      settled' := h.aligned.valueSymbols ▸ hat'.resolvable.toStanding.settled
      symbols := by
        intro x y hxy hx
        rcases hmet.symbol_iff.mp hxy with hold | ⟨hle, -, heq⟩
        · exact .inl hold
        · exact .inr (.inr ⟨v, v', m, m', r, r', hp, hle, heq, hx⟩)
      types := by
        intro t u htu ht
        rcases hmet.type_iff.mp htu with hold | ⟨hle, -, heq⟩
        · exact .inl hold
        · exact .inr ⟨v, v', m, m', r, r', hp, hle, heq, ht⟩
      apart := fun hxy => hmet.shift.apart hxy }

theorem exists_glimpse_of_type (htu : (counterpart i i').type t u) :
    ∃ σ c c', Glimpse (counterpart i i') i.valueSymbols f f' σ c c' ∧ σ.pairing.type t u ∧
      c.graph.HasType t := by
  rcases htu with ⟨rfl, ht⟩ | ⟨v, v', m, m', r, r', hp, hle, heq, ht⟩
  · obtain ⟨σ, hglimpse, -, htypes⟩ := h.glimpse_start
    exact ⟨σ, i, i', hglimpse, htypes _, ht⟩
  · have hle' : m'.graph.types.size ≤ u.index := by omega
    exact ⟨_, r, r', h.glimpse_turn hp,
      (h.met hp.turn hp.turn').type_iff.mpr (.inr ⟨hle, hle', heq⟩), ht⟩

theorem exists_glimpse_of_symbol (hxy : (counterpart i i').symbol x y) :
    (∃ v ∈ i.values, ∃ v' ∈ i'.values, v'.definition.shape = v.definition.shape ∧
      v.member.type = x ∧ v'.member.type = y) ∨
    ∃ σ c c', Glimpse (counterpart i i') i.valueSymbols f f' σ c c' ∧ σ.pairing.symbol x y ∧
      c.graph.isBound x := by
  rcases hxy with ⟨rfl, hx⟩ | hvalue | ⟨v, v', m, m', r, r', hp, hle, heq, hx⟩
  · obtain ⟨σ, hglimpse, hsymbols, -⟩ := h.glimpse_start
    exact .inr ⟨σ, i, i', hglimpse, hsymbols hx, hx⟩
  · exact .inl hvalue
  · have hle' : m'.graph.symbols.size ≤ y.index := by omega
    exact .inr ⟨_, r, r', h.glimpse_turn hp,
      (h.met hp.turn hp.turn').symbol_iff.mpr (.inr ⟨hle, hle', heq⟩), hx⟩

theorem partners_unique (hp : Partners i i' v v' m m' r r') {q' n' : Context} (hq : Partners i i' w w' n n' q q')
    (hname : w.definition.name = v.definition.name) : n = m ∧ n' = m' := by
  have hnames : ∀ {v v' : ModuleValue}, v'.definition.shape = v.definition.shape →
      v'.definition.name = v.definition.name := fun hs => (Definition.shape_eq_iff.mp hs).2.1
  have hname' : w'.definition.name = v'.definition.name := by
    rw [hnames hq.shape, hnames hp.shape, hname]
  exact ⟨(hp.turn.unique h.aligned.tabled.nodup_names hq.turn hname).2,
    (hp.turn'.unique h.aligned.tabled'.nodup_names hq.turn' hname').2⟩

theorem left {u' : TypeId}
    (htu : (counterpart i i').type t u) (htu' : (counterpart i i').type t u') : u = u' := by
  -- a type that was there before cannot be one that a turn has made
  have hnew : ∀ {v v' m m' r r'}, Partners i i' v v' m m' r r' → m.graph.types.size ≤ t.index →
      ¬ i.graph.HasType t := by
    intro v v' m m' r r' hp hle ht
    exact absurd ((h.met hp.turn hp.turn').hasType ht).2.1 (Nat.not_lt.mpr hle)
  rcases htu with ⟨rfl, ht⟩ | ⟨v, v', m, m', r, r', hp, hle, heq, ht⟩
  · rcases htu' with ⟨rfl, -⟩ | ⟨w, w', n, n', q, q', hq, hle', -, -⟩
    · rfl
    · exact absurd ht (hnew hq hle')
  · rcases htu' with ⟨rfl, ht'⟩ | ⟨w, w', n, n', q, q', hq, hle', heq', ht'⟩
    · exact absurd ht' (hnew hp hle)
    · rcases h.values.order hp.turn hp.readies hq.turn hq.readies with
        ⟨rfl, -⟩ | hlater | hlater
      · obtain ⟨rfl, rfl⟩ := h.partners_unique hp hq rfl
        cases u
        cases u'
        congr 1
        simp only at heq heq'
        omega
      · exact absurd (hlater.graph.hasType ht) (Nat.not_lt.mpr hle')
      · exact absurd (hlater.graph.hasType ht') (Nat.not_lt.mpr hle)

theorem nameOf_value (hn : f.graph.names <+: g.names) (hx : x ∈ i.valueSymbols) : g.nameOf x = "" := by
  obtain ⟨σ, hglimpse, -, -⟩ := h.glimpse_start
  have hold : i.graph.HasSymbol x := (h.values.furnished.resolvable.graph.values x hx).2
  rw [TypeGraph.nameOf_eq_of_prefix (hglimpse.infers.names.trans hn) hold, h.aligned.tabled.nameless x hx]

theorem exists_type (ht : f.graph.HasType t) : ∃ u, (counterpart i i').type t u := by
  refine (h.values.induction (P := fun _ m => ∀ t, m.graph.HasType t → ∃ u, (counterpart i i').type t u)
    (fun t ht => ⟨t, .inl ⟨rfl, ht⟩⟩) ?_).1 t ht
  intro before v after m r n _ hturn hat _ hprogresses hm t ht
  have ht := hasType_of_progresses hprogresses ht
  by_cases hold : m.graph.HasType t
  · exact hm t hold
  · obtain ⟨v', m₁, m', r₁, r', -, hp⟩ := h.exists_partners hturn.mem
    obtain ⟨-, rfl⟩ := hturn.unique h.aligned.tabled.nodup_names hp.turn rfl
    cases hp.readies.unique hat.readies
    have hle : m₁.graph.types.size ≤ t.index := Nat.le_of_not_lt hold
    refine ⟨⟨t.index - m₁.graph.types.size + m'.graph.types.size⟩, .inr ?_⟩
    refine ⟨v, v', m₁, m', r, r', hp, hle, ?_, ht⟩
    show t.index + _ = t.index - _ + _ + _
    omega

theorem symm : Rearranged bindings' bindings i' i f' f where
  aligned := h.aligned'
  aligned' := h.aligned
  self := h.self'
  self' := h.self
  values := h.values'
  values' := h.values
  clean := h.clean_folded'.1.1
  clean' := by
    obtain ⟨σ, hglimpse, -, -⟩ := h.glimpse_start
    exact hglimpse.infers.clean h.clean

theorem flip (htu : (counterpart i i').type t u) : (counterpart i' i).type u t := by
  rcases htu with ⟨rfl, ht⟩ | ⟨v, v', m, m', r, r', hp, hle, heq, ht⟩
  · obtain ⟨σ, hglimpse, -, htypes⟩ := h.glimpse_start
    obtain ⟨_, d', -, hd', -⟩ := hglimpse.defs (htypes u) ht
    exact .inl ⟨rfl, .of_def? hd'⟩
  · have hle' : m'.graph.types.size ≤ u.index := by omega
    have htu := (h.met hp.turn hp.turn').type_iff.mpr (.inr ⟨hle, hle', heq⟩)
    obtain ⟨_, d', -, hd', -⟩ := (h.glimpse_turn hp).defs htu ht
    exact .inr ⟨v', v, m', m, r', r, hp.symm, hle', heq.symm, .of_def? hd'⟩

theorem right {t' : TypeId}
    (htu : (counterpart i i').type t u) (htu' : (counterpart i i').type t' u) : t = t' :=
  h.symm.left (h.flip htu) (h.flip htu')

theorem exists_type' (hu : f'.graph.HasType u) : ∃ t, (counterpart i i').type t u := by
  obtain ⟨t, hut⟩ := h.symm.exists_type hu
  exact ⟨t, h.symm.flip hut⟩

/-- The graphs at the ends of both runs are twins, and remain so when they grow. -/
theorem twins (hg : f.graph.Grows g)
    (hg' : f'.graph.Grows g') (hn : f.graph.names <+: g.names) (hn' : f'.graph.names <+: g'.names) :
    TypeGraph.Twins (counterpart i i') i.valueSymbols g g' where
  types := by
    intro t u htu
    obtain ⟨σ, c, c', hglimpse, hσ, ht⟩ := h.exists_glimpse_of_type htu
    obtain ⟨d, d', hd, hd', -, hdefs⟩ := hglimpse.defs hσ ht
    exact ⟨d, d', hg.defs (hglimpse.infers.graph.defs hd), hg'.defs (hglimpse.infers'.graph.defs hd'),
      hdefs⟩
  symbols := by
    intro x y hxy
    rcases h.exists_glimpse_of_symbol hxy with ⟨v, hv, v', hv', -, rfl, rfl⟩ |
      ⟨σ, c, c', hglimpse, hσ, hx⟩
    · refine .inl ⟨List.mem_map_of_mem hv, ?_⟩
      rw [← h.aligned.valueSymbols]
      exact List.mem_map_of_mem hv'
    · obtain ⟨t, u, ht, hu, -, htu⟩ := hglimpse.bound hσ hx
      obtain ⟨hV, hV'⟩ := hglimpse.apart hσ
      exact .inr ⟨hV, hV', t, u, hg.bound (hglimpse.infers.graph.bound ht),
        hg'.bound (hglimpse.infers'.graph.bound hu), htu⟩
  left := h.left
  right := h.right
  names := by
    intro x y hxy
    rcases h.exists_glimpse_of_symbol hxy with ⟨v, hv, v', hv', -, rfl, rfl⟩ |
      ⟨σ, c, c', hglimpse, hσ, hx⟩
    · have hmem : v.member.type ∈ i.valueSymbols := List.mem_map_of_mem hv
      have hmem' : v'.member.type ∈ i.valueSymbols := by
        rw [← h.aligned.valueSymbols]
        exact List.mem_map_of_mem hv'
      rw [h.nameOf_value hn hmem, h.symm.nameOf_value hn' (h.aligned.valueSymbols ▸ hmem')]
    · obtain ⟨t, u, ht, hu, -⟩ := hglimpse.bound hσ hx
      rw [TypeGraph.nameOf_eq_of_prefix (hglimpse.infers.names.trans hn) (.of_bound? ht),
        TypeGraph.nameOf_eq_of_prefix (hglimpse.infers'.names.trans hn') (.of_bound? hu),
        hglimpse.graphs.names hσ]
  own := by
    intro x y t u hxy hx hxt hyu
    rcases h.exists_glimpse_of_symbol hxy with ⟨v, hv, v', hv', -, rfl, rfl⟩ |
      ⟨σ, c, c', hglimpse, hσ, hbound⟩
    · exact absurd (List.mem_map_of_mem hv) hx
    · obtain ⟨t₁, u₁, ht, hu, -⟩ := hglimpse.bound hσ hbound
      obtain ⟨d, hd, rfl⟩ := hglimpse.graphs.own hσ ht
      obtain ⟨d', hd', rfl⟩ := hglimpse.graphs.own' hσ hu
      cases hxt.symm.trans (hg.bound (hglimpse.infers.graph.bound ht))
      cases hyu.symm.trans (hg'.bound (hglimpse.infers'.graph.bound hu))
      exact ⟨TypeGraph.symbolOf_eq (hg.defs (hglimpse.infers.graph.defs hd)),
        TypeGraph.symbolOf_eq (hg'.defs (hglimpse.infers'.graph.defs hd'))⟩
  apart := by
    intro t u d d' htu hd hd'
    obtain ⟨σ, c, c', hglimpse, hσ, ht⟩ := h.exists_glimpse_of_type htu
    obtain ⟨d₁, d₁', hd₁, hd₁', -, -⟩ := hglimpse.defs hσ ht
    cases hd.symm.trans (hg.defs (hglimpse.infers.graph.defs hd₁))
    cases hd'.symm.trans (hg'.defs (hglimpse.infers'.graph.defs hd₁'))
    exact ⟨⟨(hglimpse.settled.own hd₁).2, fun z hz => (hglimpse.settled.uses hd₁ hz).2.1⟩,
      ⟨(hglimpse.settled'.own hd₁').2, fun z hz => (hglimpse.settled'.uses hd₁' hz).2.1⟩⟩
  anonymous := by
    intro t u d htu hd hpart
    obtain ⟨σ, c, c', hglimpse, hσ, ht⟩ := h.exists_glimpse_of_type htu
    obtain ⟨d₁, -, hd₁, -⟩ := hglimpse.defs hσ ht
    cases hd.symm.trans (hg.defs (hglimpse.infers.graph.defs hd₁))
    obtain ⟨hsymbol, hname⟩ := hglimpse.graphs.anonymous hσ hd₁ hpart
    rw [TypeGraph.nameOf_eq_of_prefix (hglimpse.infers.names.trans hn) hsymbol, hname]

/-- What grows at the turns of values only, and as much at the turns of partners, is the same in the
end. -/
theorem measure_eq (μ : Context → Nat) (hstart : μ i' = μ i)
    (hkept : ∀ {c c'}, Progresses c c' → μ c' = μ c)
    (hgrows : ∀ {v v' m m' r r'}, Partners i i' v v' m m' r r' →
      μ m ≤ μ r ∧ μ r + μ m' = μ r' + μ m) : μ f' = μ f := by
  -- by how much a definition makes the measure grow at its turn
  have hex : ∀ shape, ∃ k, ∀ {v m r}, i.Turn v m → Readies v m r → v.definition.shape = shape →
      μ r = μ m + k := by
    intro shape
    by_cases hv : ∃ v ∈ i.values, v.definition.shape = shape
    · obtain ⟨v, hv, hshape⟩ := hv
      obtain ⟨v', m, m', r, r', -, hp⟩ := h.exists_partners hv
      refine ⟨μ r - μ m, ?_⟩
      intro w n q ht hq hshape'
      have hname := (Definition.shape_eq_iff.mp (hshape'.trans hshape.symm)).2.1
      obtain ⟨rfl, rfl⟩ := hp.turn.unique h.aligned.tabled.nodup_names ht hname
      cases hq.unique hp.readies
      have hle := (hgrows hp).1
      omega
    · refine ⟨0, ?_⟩
      intro v m r ht _ hshape
      exact absurd ⟨v, ht.mem, hshape⟩ hv
  choose δ hδ using hex
  have hend := (h.values.induction (P := fun before m =>
    μ m = μ i + ((before.map fun v => v.definition.shape).map δ).sum) rfl ?_).1
  · have hend' := (h.values'.induction (P := fun before m' =>
      μ m' = μ i' + ((before.map fun v => v.definition.shape).map δ).sum) rfl ?_).1
    · rw [hend, hend', hstart, (h.aligned.shapes.map δ).sum_eq]
    · intro before v' after m' r' n' _ ht' hat' _ hprogresses hm'
      obtain ⟨v, m, r, -, hshape, ht, hat⟩ := h.exists_opposite ht'
      have hgrown := (hgrows ⟨hshape, ht, ht', hat.readies, hat'.readies⟩).2
      rw [hδ _ ht hat.readies hshape.symm] at hgrown
      rw [hkept hprogresses, List.map_append, List.map_append, List.sum_append]
      simp only [List.map_cons, List.map_nil, List.sum_cons, List.sum_nil]
      omega
  · intro before v after m r n _ ht hat _ hprogresses hm
    rw [hkept hprogresses, hδ _ ht hat.readies rfl, hm, List.map_append, List.map_append,
      List.sum_append]
    simp [Nat.add_assoc]

theorem sizes :
    f'.graph.symbols.size = f.graph.symbols.size ∧ f'.graph.types.size = f.graph.types.size := by
  obtain ⟨_, _, _, _, hparallel⟩ := h.aligned.parallel
  constructor
  · refine h.measure_eq (fun c => c.graph.symbols.size) ?_ ?_ ?_
    · exact (Nat.add_right_cancel hparallel.graph.level.2.2).symm
    · rintro c _ ⟨s, hadvances, rfl⟩
      show s.graph.symbols.size = c.inference.graph.symbols.size
      rw [← TypeGraph.length_names, hadvances.names, TypeGraph.length_names]
    · intro v v' m m' r r' hp
      obtain ⟨hle, -, heq⟩ := (h.glimpse_turn hp).graphs.level
      exact ⟨hle, heq⟩
  · refine h.measure_eq (fun c => c.graph.types.size) ?_ ?_ ?_
    · exact (Nat.add_right_cancel hparallel.graph.types.level.2.2).symm
    · rintro c _ ⟨s, hadvances, rfl⟩
      show s.graph.types.size = c.inference.graph.types.size
      rw [hadvances.types]
    · intro v v' m m' r r' hp
      obtain ⟨hle, -, heq⟩ := (h.glimpse_turn hp).graphs.types.level
      exact ⟨hle, heq⟩

theorem exists_fallback {d' : Expr × SymbolId} (hd' : d' ∈ f'.fallbacks) :
    ∃ d ∈ f.fallbacks, d'.1.erase = d.1.erase ∧ (counterpart i i').symbol d.2 d'.2 := by
  refine (h.values'.induction (P := fun _ m' => ∀ d' ∈ m'.fallbacks, ∃ d ∈ f.fallbacks,
    d'.1.erase = d.1.erase ∧ (counterpart i i').symbol d.2 d'.2) ?_ ?_).1 d' hd'
  · obtain ⟨_, _, _, _, hparallel⟩ := h.aligned.parallel
    obtain ⟨σ, hglimpse, -, -⟩ := h.glimpse_start
    obtain ⟨new, new', hnew, hnew', hrel⟩ := hparallel.fallbacks
    intro d' hd'
    rw [hnew'] at hd'
    obtain ⟨d, hd, hdd'⟩ := exists_of_mem_right hrel hd'
    have hmem : d ∈ i.fallbacks := hnew ▸ hd
    have hbound := h.values.furnished.resolvable.toStanding.isBound (h.values.furnished.expecting d hmem)
    exact ⟨d, hglimpse.infers.fallbacks.subset hmem, hdd'.expression,
      .inl ⟨(Shift.same_symbol_iff.mp hdd'.symbol).1, hbound⟩⟩
  · intro before v' after m' r' n' _ hturn' hat' _ hprogresses hm' d' hd'
    obtain ⟨v, m, r, hv, hshape, hturn, hat⟩ := h.exists_opposite hturn'
    have hp : Partners i i' v v' m m' r r' := ⟨hshape, hturn, hturn', hat.readies, hat'.readies⟩
    obtain ⟨new, new', hnew, hnew', hrel⟩ :=
      ((h.met hturn hturn').readies hv hshape hat.readies hat'.readies).fallbacks
    have hd' : d' ∈ r'.fallbacks := by
      obtain ⟨s, -, rfl⟩ := hprogresses
      exact hd'
    rw [hnew'] at hd'
    rcases List.mem_append.mp hd' with hd' | hd'
    · exact hm' d' hd'
    · obtain ⟨d, hd, hdd'⟩ := exists_of_mem_right hrel hd'
      have hmem : d ∈ r.fallbacks := hnew ▸ List.mem_append_right _ hd
      have hbound := hat.resolvable.toStanding.isBound (hat.expecting d hmem)
      exact ⟨d, hat.later.fallbacks.subset hmem, hdd'.expression,
        (h.glimpse_turn hp).symbols hdd'.symbol hbound⟩

theorem exists_ascribed {a' : Expr} (hturn' : i'.Turn v' m') (ha' : v'.definition.ascription = some a')
    (hy : Build.resolveType none a' m' = .ok y r') :
    ∃ v m a x, v ∈ i.values ∧ v'.definition.shape = v.definition.shape ∧ i.Turn v m ∧
      v.definition.ascription = some a ∧ (∃ r, Build.resolveType none a m = .ok x r) ∧
      (counterpart i i').symbol x y ∧ x ∉ i.valueSymbols := by
  obtain ⟨v, m, r, hv, hshape, hturn, hat⟩ := h.exists_opposite hturn'
  obtain ⟨-, -, hascription, -⟩ := Definition.shape_eq_iff.mp hshape
  have hreadies := hat.readies
  cases hreadies with
  | bare hnone =>
    rw [hnone, ha'] at hascription
    cases hascription
  | @ascribed a x _ ha hx =>
    rw [ha, ha'] at hascription
    have hp : Partners i i' v v' m m' r r' := ⟨hshape, hturn, hturn', hat.readies, .ascribed ha' hy⟩
    have hsymbol := ((h.met hturn hturn').ascribed (Option.some.inj hascription)
      (h.aligned.unsized v hv a ha) hx hy).2
    obtain ⟨_, hvaluing⟩ := hat.valuing
    obtain ⟨-, hknown⟩ := (Build.resolveType_ends a none hvaluing.resolvable).of_eq hx
    have hbound := hat.resolvable.toStanding.isBound hknown
    exact ⟨v, m, a, x, hv, hshape, hturn, ha, ⟨r, hx⟩, (h.glimpse_turn hp).symbols hsymbol hbound,
      hknown.1⟩

theorem find?_cases (name : String) : (i.find? name = none ∧ i'.find? name = none) ∨
    (∃ n n', i.find? name = some (.type n) ∧ i'.find? name = some (.type n')) ∨
    ∃ n n', i.find? name = some (.value n) ∧ i'.find? name = some (.value n') ∧
      (counterpart i i').symbol n.type n'.type := by
  have hvalue : ∀ {i : Context} {v}, i.Tabled → v ∈ i.values → v.definition.name = name →
      i.find? name = some (.value v.member) := by
    intro i v ht hv hname
    have hmem : Declaration.value v.member ∈ i.declarations :=
      List.mem_append_right _ (List.mem_map_of_mem hv)
    have hfound := lookup?_of_mem ht.names hmem
    have hmember : v.member.name = name := by
      rw [ht.members v hv, ← hname]
      rfl
    rw [show Named.name (Declaration.value v.member) = name from hmember] at hfound
    rw [ht.find, hfound]
    rfl
  have hprelude : ∀ {i : Context} {n}, i.Tabled → (∀ v ∈ i.values, v.definition.name ≠ name) →
      i.find? name = some (.value n) → Prelude.scope.find? name = some (.value n) := by
    intro i n ht hnone hfind
    rw [ht.find] at hfind
    cases hlookup : lookup? name i.declarations with
    | none => rwa [hlookup] at hfind
    | some d =>
      rw [hlookup] at hfind
      cases hfind
      have hfound := List.find?_some (p := fun d => decide (Named.name d = name)) hlookup
      have hname : n.name = name := of_decide_eq_true hfound
      rcases List.mem_append.mp (List.mem_of_find?_eq_some hlookup) with hmem | hmem
      · obtain ⟨_, -, heq⟩ := List.mem_map.mp hmem
        cases heq
      · obtain ⟨v, hv, heq⟩ := List.mem_map.mp hmem
        cases heq
        rw [ht.members v hv] at hname
        exact absurd hname (hnone v hv)
  by_cases hex : ∃ v ∈ i.values, v.definition.name = name
  · obtain ⟨v, hv, hname⟩ := hex
    obtain ⟨v', hv', hshape⟩ := h.aligned.exists_partner hv
    have hname' := (Definition.shape_eq_iff.mp hshape).2.1.trans hname
    exact .inr (.inr ⟨v.member, v'.member, hvalue h.aligned.tabled hv hname,
      hvalue h.aligned.tabled' hv' hname', .inr (.inl ⟨v, hv, v', hv', hshape, rfl, rfl⟩)⟩)
  · have hnone : ∀ v ∈ i.values, v.definition.name ≠ name := fun v hv heq => hex ⟨v, hv, heq⟩
    have hnone' : ∀ v' ∈ i'.values, v'.definition.name ≠ name := by
      intro v' hv' heq
      obtain ⟨v, hv, hshape⟩ := h.aligned.exists_partner' hv'
      exact hnone v hv ((Definition.shape_eq_iff.mp hshape).2.1.symm.trans heq)
    obtain ⟨_, _, _, _, hparallel⟩ := h.aligned.parallel
    rcases rel_cases (hparallel.scope name) with ⟨hfind, hfind'⟩ | ⟨d, d', hfind, hfind', hd⟩
    · exact .inl ⟨hfind, hfind'⟩
    · cases hd with
      | type => exact .inr (.inl ⟨_, _, hfind, hfind'⟩)
      | value n n' =>
        have hn := hprelude h.aligned.tabled hnone hfind
        have hn' := hprelude h.aligned.tabled' hnone' hfind'
        cases hn.symm.trans hn'
        have hbound := (Prelude.bound_of_lt (Prelude.symbol_lt_of_mem (Scope.mem_of_find? hn))).2.1
        exact .inr (.inr ⟨n, n, hfind, hfind',
          .inl ⟨rfl, h.values.furnished.resolvable.graph.prelude.isBound hbound⟩⟩)

end Rearranged
end Context
end Binder
