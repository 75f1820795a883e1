import Binder.Proofs.Module.Builder
import Binder.Proofs.Module.Forest
import Binder.Proofs.Module.Pass

/-! Contexts with types under construction. Whatever a type or a builder mentions is known: it is no
value, and it is bound or will be, because a builder is open for it. The operations that passes are
made of keep this, and they change nothing but the graph, the builders, the fallbacks and what was
reported. -/
namespace Binder

open Binder.Tree (Expr Mark)

/-- Between runs of inference, only values are grouped or waited for. -/
structure Inference.State.Quiet (V : List SymbolId) (s : Inference.State) : Prop where
  members : ∀ group ∈ s.groups.groups, ∀ x ∈ group, x ∈ V
  blocked : ∀ w ∈ s.blocked, w.1 ∈ V
  settled : s.groups.settled = []

namespace Context

variable {V : List SymbolId} {roots : List BuilderId} {c c' c'' : Context} {s : SymbolId} {i : Nat}
  {b : TypeBuilder}

/-- A symbol that types may mention. -/
def Known (V : List SymbolId) (c : Context) (s : SymbolId) : Prop :=
  s ∉ V ∧ (c.graph.isBound s ∨ ∃ (i : Nat) (b : TypeBuilder), c.builders[i]? = some b ∧ b.symbol = s) ∧
    (c.diagnostics = [] → s ≠ Prelude.error)

/-- What resolving types leaves alone. -/
def backdrop (c : Context) : Context :=
  { c with
    builders := #[], fallbacks := [], foldingFaults := [], diagnostics := []
    inference := { c.inference with graph := ⟨#[], #[]⟩ } }

/-- What may happen to a context while types are resolved and built. -/
structure Resolves (V : List SymbolId) (c c' : Context) : Prop where
  backdrop : c'.backdrop = c.backdrop
  graph : c.graph.Grows c'.graph
  names : c.graph.names <+: c'.graph.names
  values : ∀ s ∈ V, c'.graph.bound? s = c.graph.bound? s
  builders : ∀ {i : Nat} {b : TypeBuilder}, c.builders[i]? = some b →
    ∃ b', c'.builders[i]? = some b' ∧ b'.symbol = b.symbol ∧ b'.container = b.container
  fallbacks : c.fallbacks <+: c'.fallbacks
  diagnostics : c.diagnostics <+: c'.diagnostics

namespace Resolves

theorem refl (V : List SymbolId) (c : Context) : Resolves V c c :=
  ⟨rfl, .refl _, List.prefix_rfl, fun _ _ => rfl, fun hb => ⟨_, hb, rfl, rfl⟩, List.prefix_rfl,
    List.prefix_rfl⟩

variable (h : Resolves V c c')
include h

theorem trans (h' : Resolves V c' c'') : Resolves V c c'' where
  backdrop := h'.backdrop.trans h.backdrop
  graph := h.graph.trans h'.graph
  names := h.names.trans h'.names
  values s hs := (h'.values s hs).trans (h.values s hs)
  builders := by
    intro i b hb
    obtain ⟨b', hb', hsymbol, hcontainer⟩ := h.builders hb
    obtain ⟨b'', hb'', hsymbol', hcontainer'⟩ := h'.builders hb'
    exact ⟨b'', hb'', hsymbol'.trans hsymbol, hcontainer'.trans hcontainer⟩
  fallbacks := h.fallbacks.trans h'.fallbacks
  diagnostics := h.diagnostics.trans h'.diagnostics

theorem clean (hclean : c'.diagnostics = []) : c.diagnostics = [] :=
  List.prefix_nil.mp (hclean ▸ h.diagnostics)

theorem known (hs : c.Known V s) : c'.Known V s := by
  obtain ⟨hV, hsource, hne⟩ := hs
  refine ⟨hV, ?_, fun hclean => hne (h.clean hclean)⟩
  rcases hsource with hbound | ⟨i, b, hb, rfl⟩
  · exact .inl (h.graph.isBound hbound)
  · obtain ⟨b', hb', hsymbol, -⟩ := h.builders hb
    exact .inr ⟨i, b', hb', hsymbol⟩

theorem unchanged {β : Type} (f : Context → β)
    (hf : ∀ x : Context, f x.backdrop = f x) : f c' = f c := by
  rw [← hf c', h.backdrop, hf]

theorem inference : c'.inference = { c.inference with graph := c'.graph } := by
  have heq := congrArg (fun x : Context => { x.inference with graph := c'.graph }) h.backdrop
  exact heq

theorem find? (name : String) : c'.find? name = c.find? name := by
  have hroot : c'.root = c.root := h.unchanged Context.root fun _ => rfl
  have hscope : c'.scope = c.scope := h.unchanged Context.scope fun _ => rfl
  rw [Context.find?, Context.find?, hroot, hscope]

end Resolves

def namesOf (c : Context) (nested : List (SymbolId × BuilderId)) : ScopeBuilder TypeName :=
  ⟨nested.map fun x => ⟨c.graph.nameOf x.1, x.1⟩, .empty⟩

/-- A builder knows which types are nested in its own, and so does the type once it is made. -/
structure Laid (c : Context) (b : TypeBuilder) : Prop where
  names : ((c.namesOf b.nested).live.map TypeName.name).Nodup
  nested : ∀ x ∈ b.nested, ∃ child, c.builders[x.2.index]? = some child ∧ child.symbol = x.1 ∧
    child.container = some b.symbol
  types : c.graph.bound? b.symbol = none → b.typeScope = c.namesOf b.nested
  made : ∀ {t}, c.graph.bound? b.symbol = some t → ∃ d, c.graph.def? t = some d ∧
    d.symbol = b.symbol ∧ d.kind = .record ∧ d.container = b.container ∧
    d.typeScope = (c.namesOf b.nested).freeze.1

/-- The types and builders of a context are in order. -/
structure Coherent (V : List SymbolId) (c : Context) : Prop where
  graph : c.graph.Orderly V (c.Known V)
  quiet : c.inference.Quiet V
  forest : Forest c.builders
  builder : ∀ {i : Nat} {b : TypeBuilder}, c.builders[i]? = some b → b.kind = .record ∧
    b.symbol ∉ V ∧ Prelude.graph.symbols.size ≤ b.symbol.index ∧ c.graph.HasSymbol b.symbol
  distinct : ∀ {i j : Nat} {b b' : TypeBuilder}, c.builders[i]? = some b →
    c.builders[j]? = some b' → b.symbol = b'.symbol → i = j
  uses : ∀ {i : Nat} {b : TypeBuilder} {s}, c.builders[i]? = some b → s ∈ b.uses → c.Known V s
  /-- the fallbacks of parameters are kept to be inferred -/
  offered : ∀ {i : Nat} {b : TypeBuilder} {signature p e}, c.builders[i]? = some b →
    signature ∈ b.signatures → p ∈ signature.parameters → p.fallback = some e →
    (e, p.type) ∈ c.fallbacks
  kept : ∀ {t d signature p e}, c.graph.def? t = some d → signature ∈ d.signatures →
    p ∈ signature.parameters → p.fallback = some e → (e, p.type) ∈ c.fallbacks
  laid : ∀ {i : Nat} {b : TypeBuilder}, c.builders[i]? = some b → c.Laid b
  /-- only types that were under construction have types nested in them -/
  plain : ∀ {t d}, c.graph.def? t = some d →
    d.typeScope = .empty ∨ ∃ (i : Nat) (b : TypeBuilder), c.builders[i]? = some b ∧ b.symbol = d.symbol

/-- The builders that are still open are those within some outermost ones. -/
structure Standing (V : List SymbolId) (roots : List BuilderId) (c : Context) : Prop
    extends c.Coherent V where
  nodup : roots.Nodup
  outermost : ∀ r ∈ roots, r.index < c.builders.size ∧ ∀ i, ¬ NestedIn c.builders r i
  open_iff : ∀ {i : Nat} {b : TypeBuilder}, c.builders[i]? = some b →
    (c.graph.bound? b.symbol = none ↔ ∃ r ∈ roots, Within c.builders ⟨i⟩ r)

/-- Whatever type a name means at the top level is known, too. -/
structure Resolvable (V : List SymbolId) (roots : List BuilderId) (c : Context) : Prop
    extends c.Standing V roots where
  scope : ∀ {name entry}, c.find? name = some (.type entry) → c.Known V entry.symbol

theorem Coherent.hasSymbol_of_nested {x : SymbolId × BuilderId}
    (h : c.Coherent V) (hb : c.builders[i]? = some b) (hx : x ∈ b.nested) : c.graph.HasSymbol x.1 := by
  obtain ⟨child, hchild, hsymbol, -⟩ := (h.laid hb).nested x hx
  exact hsymbol ▸ (h.builder hchild).2.2.2

theorem Coherent.namesOf_eq (h : c.Coherent V)
    (hb : c.builders[i]? = some b) (hnames : c.graph.names <+: c'.graph.names) :
    c'.namesOf b.nested = c.namesOf b.nested := by
  have hname : ∀ x ∈ b.nested, c'.graph.nameOf x.1 = c.graph.nameOf x.1 := fun x hx =>
    TypeGraph.nameOf_eq_of_prefix hnames (h.hasSymbol_of_nested hb hx)
  simp only [namesOf, List.map_congr_left fun x hx => congrArg (TypeName.mk · x.1) (hname x hx)]

theorem Coherent.laid_of_grows (h : c.Coherent V)
    (hb : c.builders[i]? = some b) (hg : c.graph.Grows c'.graph)
    (hnames : c.graph.names <+: c'.graph.names)
    (hbuilders : ∀ {j : Nat} {x : TypeBuilder}, c.builders[j]? = some x →
      ∃ y, c'.builders[j]? = some y ∧ y.symbol = x.symbol ∧ y.container = x.container)
    (hopen : c.graph.bound? b.symbol = none → c'.graph.bound? b.symbol = none) : c'.Laid b := by
  have hlaid := h.laid hb
  have hscope := h.namesOf_eq hb hnames
  refine ⟨hscope ▸ hlaid.names, ?_, ?_, ?_⟩
  · intro x hx
    obtain ⟨child, hchild, hsymbol, hcontainer⟩ := hlaid.nested x hx
    obtain ⟨child', hchild', hsymbol', hcontainer'⟩ := hbuilders hchild
    exact ⟨child', hchild', hsymbol'.trans hsymbol, hcontainer'.trans hcontainer⟩
  · intro hnone
    rw [hscope]
    refine hlaid.types ?_
    by_contra hbound
    obtain ⟨t, ht⟩ := Option.ne_none_iff_exists'.mp hbound
    exact absurd ((hg.bound ht).symm.trans hnone) (by simp)
  · intro t ht
    cases hbound : c.graph.bound? b.symbol with
    | none => exact absurd (ht.symm.trans (hopen hbound)) (by simp)
    | some t' =>
      cases (hg.bound hbound).symm.trans ht
      obtain ⟨d, hd, hrest⟩ := hlaid.made hbound
      exact ⟨d, hg.defs hd, hscope ▸ hrest⟩

theorem Coherent.keep (h : c.Coherent V) (hr : Resolves V c c') (hgraph : c'.graph = c.graph)
    (hbuilders : c'.builders = c.builders) : c'.Coherent V where
  graph := hgraph ▸ h.graph.mono fun _ => hr.known
  quiet := by
    rw [hr.inference]
    exact ⟨h.quiet.members, h.quiet.blocked, h.quiet.settled⟩
  forest := hbuilders ▸ h.forest
  builder := by
    rw [hbuilders, hgraph]
    exact h.builder
  distinct := hbuilders ▸ h.distinct
  uses hb hs := hr.known (h.uses (hbuilders ▸ hb) hs)
  offered hb hsignature hp he := hr.fallbacks.subset (h.offered (hbuilders ▸ hb) hsignature hp he)
  kept hd hsignature hp he := hr.fallbacks.subset (h.kept (hgraph ▸ hd) hsignature hp he)
  laid hb := h.laid_of_grows (hbuilders ▸ hb) hr.graph hr.names hr.builders fun hnone => hgraph ▸ hnone
  plain hd := by
    rw [hbuilders]
    exact h.plain (hgraph ▸ hd)

theorem Standing.keep (h : c.Standing V roots) (hr : Resolves V c c') (hgraph : c'.graph = c.graph)
    (hbuilders : c'.builders = c.builders) : c'.Standing V roots where
  toCoherent := h.toCoherent.keep hr hgraph hbuilders
  nodup := h.nodup
  outermost := hbuilders ▸ h.outermost
  open_iff := by
    rw [hbuilders, hgraph]
    exact h.open_iff

theorem Resolvable.of_standing {roots' : List BuilderId} (h : c.Resolvable V roots)
    (hr : Resolves V c c') (hs : c'.Standing V roots') : c'.Resolvable V roots' where
  toStanding := hs
  scope hfind := hr.known (h.scope (hr.find? _ ▸ hfind))

variable {g : TypeGraph}

theorem resolves_setGraph (hg : c.graph.Grows g) (hnames : c.graph.names <+: g.names)
    (hv : ∀ s ∈ V, g.bound? s = c.graph.bound? s) : Resolves V c (c.setGraph g) where
  backdrop := rfl
  graph := hg
  names := hnames
  values := hv
  builders hb := ⟨_, hb, rfl, rfl⟩
  fallbacks := List.prefix_rfl
  diagnostics := List.prefix_rfl

theorem Coherent.setGraph (h : c.Coherent V) (hr : Resolves V c (c.setGraph g))
    (hg : g.Orderly V (c.Known V))
    (hkept : ∀ {t d signature p e}, g.def? t = some d → signature ∈ d.signatures →
      p ∈ signature.parameters → p.fallback = some e → (e, p.type) ∈ c.fallbacks)
    (hlaid : ∀ {i : Nat} {b : TypeBuilder}, c.builders[i]? = some b → (c.setGraph g).Laid b)
    (hplain : ∀ {t d}, g.def? t = some d → d.typeScope = .empty ∨
      ∃ (i : Nat) (b : TypeBuilder), c.builders[i]? = some b ∧ b.symbol = d.symbol) :
    (c.setGraph g).Coherent V where
  graph := hg.mono fun _ => hr.known
  quiet := ⟨h.quiet.members, h.quiet.blocked, h.quiet.settled⟩
  forest := h.forest
  builder := by
    intro i b hb
    obtain ⟨hkind, hV, hle, hsymbol⟩ := h.builder hb
    exact ⟨hkind, hV, hle, hr.graph.hasSymbol hsymbol⟩
  distinct := h.distinct
  uses hb hs := hr.known (h.uses hb hs)
  offered := h.offered
  kept := hkept
  laid := hlaid
  plain := hplain

theorem Standing.setGraph (h : c.Standing V roots) (hc : (c.setGraph g).Coherent V)
    (hbound : ∀ {i : Nat} {b : TypeBuilder}, c.builders[i]? = some b →
      g.bound? b.symbol = c.graph.bound? b.symbol) : (c.setGraph g).Standing V roots where
  toCoherent := hc
  nodup := h.nodup
  outermost := h.outermost
  open_iff := by
    intro i b hb
    rw [graph_setGraph, hbound hb]
    exact h.open_iff hb

/-- A symbol that may still get a builder. -/
structure Free (V : List SymbolId) (c : Context) (s : SymbolId) : Prop where
  own : Prelude.graph.symbols.size ≤ s.index
  unbound : c.graph.isUnbound s
  notMem : s ∉ V
  unused : ∀ {i : Nat} {b : TypeBuilder}, c.builders[i]? = some b → b.symbol ≠ s

theorem Free.newSymbol (h : c.Free V s) (name : String) :
    (c.setGraph (c.graph.newSymbol name).2).Free V s := by
  obtain ⟨hsymbol, hnone⟩ := TypeGraph.isUnbound_iff.mp h.unbound
  refine ⟨h.own, TypeGraph.isUnbound_iff.mpr ⟨?_, ?_⟩, h.notMem, h.unused⟩
  · exact (TypeGraph.grows_newSymbol name).hasSymbol hsymbol
  · exact (TypeGraph.bound?_newSymbol name).trans hnone

theorem Standing.newSymbol (h : c.Standing V roots) (name : String) :
    Resolves V c (c.setGraph (c.graph.newSymbol name).2) ∧
      (c.setGraph (c.graph.newSymbol name).2).Standing V roots ∧
      (c.setGraph (c.graph.newSymbol name).2).Free V (c.graph.newSymbol name).1 := by
  have hr : Resolves V c (c.setGraph (c.graph.newSymbol name).2) :=
    resolves_setGraph (TypeGraph.grows_newSymbol name) (by simp)
      fun s _ => TypeGraph.bound?_newSymbol name
  have hfresh : c.graph.bound? (c.graph.newSymbol name).1 = none := by
    simp [TypeGraph.newSymbol, TypeGraph.bound?]
  refine ⟨hr, ?_, ?_, ?_, ?_, ?_⟩
  · have hlaid : ∀ {i : Nat} {b : TypeBuilder}, c.builders[i]? = some b →
        (c.setGraph (c.graph.newSymbol name).2).Laid b := fun hb =>
      h.laid_of_grows hb hr.graph hr.names hr.builders (TypeGraph.bound?_newSymbol name).trans
    refine h.setGraph (h.toCoherent.setGraph hr (h.graph.newSymbol name) h.kept hlaid h.plain) ?_
    intro i b hb
    exact TypeGraph.bound?_newSymbol name
  · exact h.graph.prelude.symbols
  · rw [TypeGraph.isUnbound_iff, graph_setGraph, TypeGraph.bound?_newSymbol]
    exact ⟨by simp [TypeGraph.HasSymbol, TypeGraph.newSymbol], hfresh⟩
  · intro hmem
    exact absurd (h.graph.values _ hmem).2 (Nat.lt_irrefl c.graph.symbols.size)
  · intro i b hb heq
    have hlt := (h.builder hb).2.2.2
    rw [heq] at hlt
    exact absurd hlt (Nat.lt_irrefl c.graph.symbols.size)

end Context
end Binder
