import Binder.Proofs.Module.Confluence
import Binder.Proofs.Module.Listing
import Binder.Proofs.Module.Outcome

/-! Builds do not depend on the order of bindings. If a build reports nothing and values have the types
that are ascribed to them, the same holds of a build in which values stand in another order, and both
reports list the same types and the same values. -/
namespace Binder

open Binder.Tree (Expr)

namespace Tree.Reordered

theorem refl (bindings : List Expr) : Reordered bindings bindings := ⟨.refl _, rfl⟩

end Tree.Reordered

namespace Context

variable {name : String} {root root' : Expr} {i i' m m' c c' r : Context} {s s' : Inference.State}
  {v v' : ModuleValue} {x : SymbolId}

namespace Built

theorem symbols_size (h : Built m s c) : c.graph.symbols.size = s.graph.symbols.size + 1 := by
  obtain ⟨name, d, -, -, -, hgraph⟩ := h.graph
  rw [hgraph, TypeGraph.symbols_size_newType, TypeGraph.symbols_size_newSymbol]

theorem types_size (h : Built m s c) : c.graph.types.size = s.graph.types.size + 1 := by
  obtain ⟨name, d, -, -, -, hgraph⟩ := h.graph
  rw [hgraph, TypeGraph.types_newType, Array.size_push]
  rfl

theorem hasType_of_part (h : Built m s c) {t : TypeId} {d : TypeDef} (hd : c.graph.def? t = some d)
    (hpart : d.kind.part?.isSome) : s.graph.HasType t := by
  obtain ⟨name, module, -, hkind, -, hgraph⟩ := h.graph
  rw [hgraph, TypeGraph.def?_newType] at hd
  split at hd
  · cases hd
    rw [hkind] at hpart
    cases hpart
  · exact .of_def? hd

end Built

/-- Two builds of the same bindings in different orders. -/
structure Rebuilt (name : String) (root root' : Expr) (i i' m m' : Context) (s s' : Inference.State)
    (c c' : Context) : Prop where
  reordered : Tree.Reordered root.bindings root'.bindings
  unsized : Build.Unsized (Tree.preorderOf root.bindings)
  unsized' : Build.Unsized (Tree.preorderOf root'.bindings)
  outcome : Outcome name root i m s c
  outcome' : Outcome name root' i' m' s' c'

namespace Rebuilt

variable (h : Rebuilt name root root' i i' m m' s s' c c')
include h

theorem symm : Rebuilt name root' root i' i m' m s' s c' c :=
  ⟨h.reordered.symm, h.unsized', h.unsized, h.outcome', h.outcome⟩

theorem ended (hclean : m.diagnostics = []) : Ended root.bindings root'.bindings i i' m m' s s' := by
  have hi : i.diagnostics = [] := h.outcome.values.infers.clean hclean
  obtain ⟨haligned, hclean'⟩ := Build.furnish_aligned h.reordered h.unsized h.outcome.furnishes
    h.outcome'.furnishes hi
  obtain ⟨haligned', -⟩ := Build.furnish_aligned h.reordered.symm h.unsized' h.outcome'.furnishes
    h.outcome.furnishes hclean'
  obtain ⟨hself, -⟩ := Build.furnish_aligned (.refl _) h.unsized h.outcome.furnishes
    h.outcome.furnishes hi
  obtain ⟨hself', -⟩ := Build.furnish_aligned (.refl _) h.unsized' h.outcome'.furnishes
    h.outcome'.furnishes hclean'
  exact
    { rearranged :=
        { aligned := haligned, aligned' := haligned', self := hself, self' := hself'
          values := h.outcome.values, values' := h.outcome'.values, clean := hclean
          clean' := hclean' }
      concludes := h.outcome.concludes
      concludes' := h.outcome'.concludes }

/-- The second build is followed with what the first has found out. -/
theorem replayed (hclean : m.diagnostics = []) (hreported : s.diagnostics = [])
    (hkept : ∀ {v n a x r}, i.Turn v n → v.definition.ascription = some a →
      Build.resolveType none a n = .ok x r → s.graph.Tied v.member.type x) :
    Replayed root.bindings root'.bindings i i' m m' s s' where
  toEnded := h.ended hclean
  silent := ⟨h.outcome.concludes, h.outcome.attested, hclean, hreported⟩
  kept := hkept
  appraised' := h.outcome'.appraised
  run' := h.outcome'.run
  inferable' := h.outcome'.attested.followed.provenance.toInferable

theorem tied_of_sameType (hclean : c.diagnostics = [])
    (hkept : ∀ v ∈ c.values, ∀ x r, Ascribes name root v x r →
      c.graph.sameType v.member.type x = true)
    {n : Context} {a : Expr} (hturn : i.Turn v n)
    (ha : v.definition.ascription = some a) (hx : Build.resolveType none a n = .ok x r) :
    s.graph.Tied v.member.type x := by
  have hmem := hturn.mem
  obtain ⟨before, after, hvalues, hn⟩ := hturn
  obtain ⟨hm, -⟩ := h.outcome.clean_iff.mp hclean
  have hended := h.ended hm
  have hsame := hkept v (by rwa [h.outcome.built.values, hended.infers.values]) x r
    ⟨i, n, before, after, a, h.outcome.furnishes, hvalues, ha, hn, hx⟩
  obtain ⟨g, ⟨_, _, _, hn', hx', hdefinite⟩, hgrows⟩ := (Build.forM_inferValue_compares hvalues ha
    h.outcome.furnished h.outcome.once).of_eq h.outcome.valued
  cases hn.symm.trans hn'
  cases hx.symm.trans hx'
  have hlast := hgrows.trans h.outcome.concludes.advances.grows
  have hv := hlast.isBound hdefinite.first
  have hbound := hlast.isBound hdefinite.second
  obtain ⟨rank, hrank⟩ := h.outcome.built.ranked h.outcome.concludes.ready
  rw [h.outcome.concludes.ready.tidy.graph.sameType_eq hrank h.outcome.built.grows hv hbound] at hsame
  obtain ⟨t, ht⟩ := TypeGraph.isBound_iff.mp hv
  obtain ⟨u, hu⟩ := TypeGraph.isBound_iff.mp hbound
  exact .inr ⟨t, u, ht, hu, (hended.comparable.sameType_iff ht hu).mp hsame⟩

end Rebuilt

/-- The first of two builds reports nothing, and its values have the types that are ascribed to them. -/
structure Independent (name : String) (root root' : Expr) (i i' m m' : Context) (s s' : Inference.State)
    (c c' : Context) : Prop extends Rebuilt name root root' i i' m m' s s' c c' where
  clean : c.diagnostics = []
  kept : ∀ {v n a x r}, i.Turn v n → v.definition.ascription = some a →
    Build.resolveType none a n = .ok x r → s.graph.Tied v.member.type x

namespace Independent

variable (h : Independent name root root' i i' m m' s s' c c')

include h

theorem replays : Replayed root.bindings root'.bindings i i' m m' s s' := by
  obtain ⟨hm, hs, -⟩ := h.outcome.clean_iff.mp h.clean
  exact h.replayed hm hs h.kept

theorem infers_silently : m'.diagnostics = [] ∧ m'.foldingFaults = [] :=
  h.replays.rearranged.clean_folded'.1

theorem replays' : Replayed root'.bindings root.bindings i' i m' m s' s :=
  h.symm.replayed h.infers_silently.1 h.replays.reported' h.replays.kept'

theorem like_value (hv : v ∈ i.values) (hv' : v' ∈ i'.values)
    (hshape : v'.definition.shape = v.definition.shape) :
    ∃ t u, s.graph.bound? v.member.type = some t ∧ s'.graph.bound? v'.member.type = some u ∧
      TypeGraph.Like (counterpart i i').type s.graph s'.graph t u := by
  obtain ⟨-, -, -, -, -, hbound⟩ := h.outcome.clean_iff.mp h.clean
  obtain ⟨t, ht⟩ := TypeGraph.isBound_iff.mp (hbound v (h.replays.mem_value hv))
  obtain ⟨u, hu, -⟩ := h.replays'.like_value hv' hv hshape.symm ht
  obtain ⟨t', ht', hlike⟩ := h.replays.like_value hv hv' hshape hu
  exact ⟨t', u, ht', hu, hlike⟩

theorem isBound' (hv' : v' ∈ m'.values) : s'.graph.isBound v'.member.type := by
  rw [h.replays.infers'.values] at hv'
  obtain ⟨v, hv, hshape⟩ := h.replays.rearranged.aligned.exists_partner' hv'
  obtain ⟨-, u, -, hu, -⟩ := h.like_value hv hv' hshape
  exact TypeGraph.isBound_iff.mpr ⟨u, hu⟩

theorem blocked' : s'.blocked = [] := by
  rw [List.eq_nil_iff_forall_not_mem]
  intro w hw
  obtain ⟨v', hv', heq⟩ := List.mem_map.mp (h.outcome'.concludes.ready.tidy.blocked w hw).1
  have hbound := h.isBound' hv'
  rw [show v'.member.type = w.1 from heq, TypeGraph.isBound,
    h.outcome'.attested.followed.vigilant.unbound w hw] at hbound
  cases hbound

theorem isMutable_eq (hv : v ∈ i.values) (hv' : v' ∈ i'.values)
    (hshape : v'.definition.shape = v.definition.shape) :
    v'.member.isMutable = v.member.isMutable ∧ v'.member.name = v.member.name := by
  obtain ⟨hmutable, hname, -⟩ := Definition.shape_eq_iff.mp hshape
  rw [h.replays.rearranged.aligned.tabled.members v hv,
    h.replays.rearranged.aligned.tabled'.members v' hv']
  simp [Definition.member, Member.isMutable, hmutable, hname]

theorem faultsOf' (hv' : v' ∈ m'.values) : (m'.concluded s').faultsOf v' = [] := by
  rw [faultsOf, List.flatMap_eq_nil_iff]
  intro e' he'
  split
  next hfolds =>
    rw [h.replays.infers'.values] at hv'
    obtain ⟨v, hv, hshape⟩ := h.replays.rearranged.aligned.exists_partner' hv'
    obtain ⟨-, -, -, hvalue⟩ := Definition.shape_eq_iff.mp hshape
    rw [Option.mem_toList.mp he'] at hvalue
    obtain ⟨e, he, herase⟩ := Tree.eraseOption_eq_some hvalue.symm
    have hmutable : v.member.isMutable = false := (h.isMutable_eq hv hv' hshape).1 ▸ hfolds.1
    exact (Constant.eval_agrees herase.symm).silent
      (h.outcome.faults_eq_nil h.clean (h.replays.mem_value hv) he hmutable)
  next => rfl

theorem clean' : c'.diagnostics = [] :=
  h.outcome'.clean_iff.mpr ⟨h.infers_silently.1, h.replays.reported', h.blocked', h.infers_silently.2,
    fun _ hv' => h.faultsOf' hv', fun _ hv' => h.isBound' hv'⟩

/-- What is told of types and values is told alike in the end. -/
theorem legible : TypeGraph.Legible (counterpart i i') i.valueSymbols c.graph c'.graph where
  toTwins := h.replays.rearranged.twins (h.replays.concludes.advances.grows.trans h.outcome.built.grows)
    (h.replays.concludes'.advances.grows.trans h.outcome'.built.grows)
    (h.replays.concludes.names.trans h.outcome.built.names)
    (h.replays.concludes'.names.trans h.outcome'.built.names)
  like := by
    intro t u htu
    obtain ⟨d, d', -, hd', -⟩ := h.replays.twins.types htu
    have hlike := h.replays.twins.paired.like h.replays.settled' (h.replays.settled'.own hd').1 htu
    exact hlike.grows h.outcome.built.grows h.outcome'.built.grows
  covered := fun hd hpart =>
    h.replays.rearranged.exists_type (h.replays.concludes.hasType (h.outcome.built.hasType_of_part hd hpart))
  covered' := fun hd hpart => h.replays.rearranged.exists_type'
    (h.replays.concludes'.hasType (h.outcome'.built.hasType_of_part hd hpart))

theorem textDepth_eq : c'.graph.textDepth = c.graph.textDepth := by
  obtain ⟨hsymbols, htypes⟩ := h.replays.rearranged.sizes
  have hnames : ∀ {m : Context} {s : Inference.State}, m.Concludes s →
      s.graph.symbols.size = m.graph.symbols.size := by
    intro m s hs
    rw [← TypeGraph.length_names, hs.advances.names, TypeGraph.length_names]
    rfl
  rw [TypeGraph.textDepth, TypeGraph.textDepth, h.outcome.built.symbols_size, h.outcome'.built.symbols_size,
    h.outcome.built.types_size, h.outcome'.built.types_size, hnames h.replays.concludes,
    hnames h.replays.concludes', h.replays.concludes.advances.types, h.replays.concludes'.advances.types]
  have htypes : m'.inference.graph.types.size = m.inference.graph.types.size := htypes
  omega

theorem types_size_eq : c'.graph.types.size = c.graph.types.size := by
  rw [h.outcome.built.types_size, h.outcome'.built.types_size, h.replays.concludes.advances.types,
    h.replays.concludes'.advances.types]
  exact congrArg (· + 1) h.replays.rearranged.sizes.2

theorem types_eq : (Report.ofContext c').types = (Report.ofContext c).types := by
  have hl := h.legible
  -- symbols that stand for each other and are none of values
  let p : Pairing :=
    { counterpart i i' with symbol := fun x y => (counterpart i i').symbol x y ∧ x ∉ i.valueSymbols }
  have htext : ∀ {x y}, p.symbol x y → c'.graph.symbolText y = c.graph.symbolText x := fun hxy =>
    hl.symbolText_eq h.textDepth_eq (.paired hxy.1 hxy.2)
  have htype : ∀ {x y}, p.symbol x y → Option.Rel p.Listed (c.graph.typeOf? x) (c'.graph.typeOf? y) := by
    rintro x y ⟨hxy, hx⟩
    rcases hl.symbols hxy with ⟨hmem, -⟩ | ⟨-, -, t, u, hxt, hyu, htu⟩
    · exact absurd hmem hx
    · obtain ⟨d, d', hd, hd', hdefs⟩ := hl.types htu
      obtain ⟨⟨hown, huses⟩, -⟩ := hl.apart htu hd hd'
      rw [TypeGraph.typeOf?, TypeGraph.typeOf?, hxt, hyu, Option.bind_some, Option.bind_some, hd, hd']
      exact .some (hdefs.imp (q := p) (fun hy => ⟨hy, hown⟩)
        fun hz hzy => ⟨hzy, huses _ hz⟩).listed
  have hentries : c.declared.map DeclaredType.entry = c'.declared.map DeclaredType.entry := by
    rw [h.outcome.declared, h.outcome'.declared, h.replays.infers.declared, h.replays.infers'.declared,
      h.replays.rearranged.aligned.entries]
  have hdeclared : c.declared = i.declared := h.outcome.declared.trans h.replays.infers.declared
  have hself : ∀ d ∈ c.declared, p.symbol d.entry.symbol d.entry.symbol := by
    intro d hd
    have htabled := h.replays.rearranged.aligned.tabled
    have hmem : Declaration.type d.entry ∈ i.declarations :=
      List.mem_append_left _ (List.mem_map.mpr ⟨d, hdeclared ▸ hd, rfl⟩)
    have hfind : i.find? d.entry.name = some (.type d.entry) := by
      rw [htabled.find]
      exact Option.or_eq_some_iff.mpr (.inl (lookup?_of_mem htabled.names hmem))
    have hresolvable := h.replays.rearranged.values.furnished.resolvable
    have hknown := hresolvable.scope hfind
    exact ⟨.inl ⟨rfl, hresolvable.toStanding.isBound hknown⟩, hknown.1⟩
  rw [Report.ofContext, Report.ofContext]
  refine Report.flatMap_eq_of_forall₂ (forall₂_imp_of_mem (forall₂_of_map_eq hentries)
    (S := fun d d' => p.symbol d.entry.symbol d'.entry.symbol) ?_) ?_
  · intro d hd d' heq
    exact heq ▸ hself d hd
  · intro d d' hdd'
    rw [h.types_size_eq, Report.typeEntries_eq htext htype _ hdd']

theorem symbolText_eq (hv : v ∈ i.values) (hv' : v' ∈ i'.values)
    (hshape : v'.definition.shape = v.definition.shape) :
    c'.graph.symbolText v'.member.type = c.graph.symbolText v.member.type := by
  obtain ⟨t, u, ht, hu, hlike⟩ := h.like_value hv hv' hshape
  refine h.legible.symbolText_eq h.textDepth_eq (.nameless ?_ ?_ (h.outcome.built.grows.bound ht)
    (h.outcome'.built.grows.bound hu) (hlike.grows h.outcome.built.grows h.outcome'.built.grows))
  · exact h.replays.rearranged.nameOf_value (h.replays.concludes.names.trans h.outcome.built.names)
      (List.mem_map_of_mem hv)
  · exact h.replays.rearranged.symm.nameOf_value
      (h.replays.concludes'.names.trans h.outcome'.built.names) (List.mem_map_of_mem hv')

theorem constant_eq (hv : v ∈ i.values) (hv' : v' ∈ i'.values)
    (hshape : v'.definition.shape = v.definition.shape) :
    c'.constant? v'.member.name = c.constant? v.member.name := by
  obtain ⟨-, -, -, hvalue⟩ := Definition.shape_eq_iff.mp hshape
  have hmutable := (h.isMutable_eq hv hv' hshape).1
  rw [h.outcome.constant?_eq h.clean (h.replays.mem_value hv),
    h.outcome'.constant?_eq h.clean' (h.replays.infers'.values ▸ hv'), ModuleValue.constant?,
    ModuleValue.constant?, hmutable]
  cases he : v.definition.value with
  | none =>
    rw [he] at hvalue
    rw [Tree.eraseOption_eq_none hvalue]
  | some e =>
    rw [he] at hvalue
    obtain ⟨e', he', herase⟩ := Tree.eraseOption_eq_some hvalue
    rw [he', Option.bind_some, Option.bind_some, (Constant.eval_agrees herase).constant]

/-- Both reports list the same values, in the order of their definitions. -/
theorem values_perm : (Report.ofContext c').values.Perm (Report.ofContext c).values := by
  have hvalues : c.values = i.values := h.outcome.built.values.trans h.replays.infers.values
  have hvalues' : c'.values = i'.values := h.outcome'.built.values.trans h.replays.infers'.values
  -- the values of the first order, each where its partner stands in the second
  obtain ⟨sorted, hsorted, hperm⟩ := List.perm_comp_forall₂ h.replays.rearranged.aligned.shapes
    (List.forall₂_map_left_iff.mpr (List.forall₂_same.mpr fun _ _ => rfl) :
      List.Forall₂ (fun shape v => shape = v.definition.shape) _ i.values)
  rw [List.forall₂_map_left_iff] at hsorted
  have hpairs : List.Forall₂ (fun v v' => v ∈ i.values ∧ v' ∈ i'.values ∧
      v'.definition.shape = v.definition.shape) sorted i'.values := by
    have hmem : ∀ v' ∈ i'.values, v' ∈ i'.values := fun _ hv' => hv'
    have hboth := ((List.forall₂_and_left _ _).mpr ⟨hmem, hsorted⟩).flip
    exact forall₂_imp_of_mem hboth fun v hv v' hv' => ⟨hperm.mem_iff.mp hv, hv'.1, hv'.2⟩
  rw [Report.ofContext, Report.ofContext, hvalues, hvalues']
  refine .trans (.of_eq (Report.map_eq_of_forall₂ hpairs ?_)) (hperm.map _)
  rintro v v' ⟨hv, hv', hshape⟩
  obtain ⟨hmutable, hname⟩ := h.isMutable_eq hv hv' hshape
  rw [h.symbolText_eq hv hv' hshape, h.constant_eq hv hv' hshape, hmutable, hname]

end Independent

/-- The order of values does not matter. Let the build of a document without sizes of arrays report
nothing and leave every value with the type that is ascribed to it. If values and expressions stand at
other places, but types are declared and extended in the same order, then the build reports nothing
either, and its report has the same types and the same values. -/
theorem reordered_build_reports_alike {d d' : Document} {k k' : Nat} {root : Expr}
    (hroot : d.lower k = .ok root k')
    (hunsized : (Tree.preorderOf d.bindings).any Tree.Node.isSized = false) {name : String} {c : Context}
    (hc : c = ((initial name).build root).1) (hclean : c.diagnostics = [])
    (hkept : ∀ v ∈ c.values, ∀ x r, Ascribes name root v x r →
      c.graph.sameType v.member.type x = true)
    (hperm : (Tree.bindingsOf d'.bindings).Perm (Tree.bindingsOf d.bindings))
    (horder : (Tree.bindingsOf d'.bindings).filter Tree.Node.declares =
      (Tree.bindingsOf d.bindings).filter Tree.Node.declares) (j : Nat) :
    (d'.bindings.Perm d.bindings → ∃ root' j', d'.lower j = .ok root' j') ∧
    ∀ root' j', d'.lower j = .ok root' j' → ∃ c' t, (initial name).build root' = (c', .ok t) ∧
      c'.diagnostics = [] ∧ (Report.ofContext c').types = (Report.ofContext c).types ∧
      (Report.ofContext c').values.Perm (Report.ofContext c).values := by
  refine ⟨fun hmoved => Document.exists_lower hroot hmoved j, ?_⟩
  intro root' j' hroot'
  obtain ⟨i, m, s, houtcome⟩ := exists_outcome_of_eq hroot hc
  obtain ⟨c', t, hbuild', i', m', s', houtcome'⟩ := exists_outcome hroot' name
  have hsize := Document.any_isSized_lower hroot
  have hsize' := Document.any_isSized_lower hroot'
  have hsame : (Tree.preorderOf d'.bindings).any Tree.Node.isSized =
      (Tree.preorderOf d.bindings).any Tree.Node.isSized := by
    rw [← Tree.any_isSized_bindingsOf d.bindings, ← Tree.any_isSized_bindingsOf d'.bindings,
      Tree.preorderOf_eq_flatMap, Tree.preorderOf_eq_flatMap]
    exact (hperm.flatMap_right _).any_eq
  have hrebuilt : Rebuilt name root root' i i' m m' s s' c c' :=
    { reordered := ⟨Document.bindings_perm hroot hroot' hperm, by
        rw [Document.filter_isDeclaration hroot, Document.filter_isDeclaration hroot', horder]⟩
      unsized := fun e he => by simpa using List.any_eq_false.mp (hsize.trans hunsized) e he
      unsized' := fun e he => by
        simpa using List.any_eq_false.mp (hsize'.trans (hsame.trans hunsized)) e he
      outcome := houtcome
      outcome' := houtcome' }
  have hindependent : Independent name root root' i i' m m' s s' c c' :=
    ⟨hrebuilt, hclean, fun hturn ha hx => hrebuilt.tied_of_sameType hclean hkept hturn ha hx⟩
  exact ⟨c', t, hbuild', hindependent.clean', hindependent.types_eq, hindependent.values_perm⟩

/-- A type, a value of an ascribed type, a value that refers to it, and an expression. -/
def backwardReference : Document where
  bindings := [
    .definition none false "Point" none (some (.typeLiteral none [.field "x" (.ident none "Int") true])),
    .definition none true "start" (some (.ident none "Int")) (some (.literal none (.int 2))),
    .definition none false "next" none
      (some (.call none (.ident none "+") [.ident none "start", .literal none (.int 1)])),
    .call none (.ident none "-") [.ident none "next"]]

def turnedReference : Document where
  bindings := backwardReference.bindings.reverse

def backwardRoot : Expr := backwardReference.root

/-- The name that a value has for its type. -/
def typeName? (v : ModuleValue) : Option String :=
  v.definition.ascription.map fun
    | .ident _ name => name
    | _ => ""

theorem ascribes_backwardRoot {v : ModuleValue} (h : Ascribes "main" backwardRoot v x r) :
    x = Builtin.int.symbol := by
  obtain ⟨i, m, before, after, a, hfurnish, hvalues, ha, hbefore, hx⟩ := h
  have hrun : (match (do Build.enter backwardRoot; Build.furnish) (initial "main") with
      | .ok _ i => (i.values.map typeName?, i.find? "Int")
      | .error _ _ => ([], none)) =
      ([some "Int", none], some (.type ⟨"Int", Builtin.int.symbol⟩)) := by
    rw [Build.furnish, Build.declareValues_eq, initial_eq_outset]
    decide +kernel
  rw [hfurnish] at hrun
  obtain ⟨hnames, hfind⟩ := Prod.mk.inj hrun
  -- the first value is the only one with a type
  have hname : before = [] ∧ typeName? v = some "Int" := by
    rw [hvalues] at hnames
    rcases before with _ | ⟨w, _ | ⟨w', before⟩⟩
    · exact ⟨rfl, (List.cons.inj hnames).1⟩
    · simp [typeName?, ha] at hnames
    · simp at hnames
  obtain ⟨rfl, hname⟩ := hname
  cases hbefore
  rw [typeName?, ha] at hname
  cases a with
  | ident note name =>
    obtain rfl : name = "Int" := by simpa using hname
    have hresolve : Build.Ends (Build.resolveType none (.ident note "Int")) i
        fun x _ => x = Builtin.int.symbol := by
      rw [Build.resolveType, Build.resolveTypeBy]
      refine .bind (.get ?_)
      simp only [findEnclosed?, around, List.findSome?_nil, hfind]
      exact Build.Ends.pure rfl
    exact hresolve.of_eq hx
  | _ => simp at hname

theorem reordered_build_reports_alike_turnedReference :
    backwardReference.lower 0 = .ok backwardRoot 17 ∧
    (Tree.preorderOf backwardReference.bindings).any Tree.Node.isSized = false ∧
    ∃ c, c = ((initial "main").build backwardRoot).1 ∧ c.diagnostics = [] ∧
      (∀ v ∈ c.values, ∀ x r, Ascribes "main" backwardRoot v x r →
        c.graph.sameType v.member.type x = true) ∧
      ∃ root' j', turnedReference.lower 0 = .ok root' j' ∧
        ∃ c' t, (initial "main").build root' = (c', .ok t) ∧ c'.diagnostics = [] ∧
          (Report.ofContext c').types = (Report.ofContext c).types ∧
          (Report.ofContext c').values.Perm (Report.ofContext c).values := by
  have hlower : backwardReference.lower 0 = .ok backwardRoot 17 := rfl
  have hunsized : (Tree.preorderOf backwardReference.bindings).any Tree.Node.isSized = false := rfl
  obtain ⟨c, hc⟩ : ∃ c, c = ((initial "main").build backwardRoot).1 := ⟨_, rfl⟩
  have hbuilt : c.diagnostics.isEmpty = true ∧
      (c.values.all fun v => c.graph.sameType v.member.type Builtin.int.symbol) = true := by
    rw [hc, Build.build_eq_evaluate]
    decide +kernel
  have hclean := List.isEmpty_iff.mp hbuilt.1
  have hkept : ∀ v ∈ c.values, ∀ x r, Ascribes "main" backwardRoot v x r →
      c.graph.sameType v.member.type x = true := by
    intro v hv x r hx
    rw [ascribes_backwardRoot hx]
    exact List.all_eq_true.mp hbuilt.2 v hv
  have hperm : turnedReference.bindings.Perm backwardReference.bindings := List.reverse_perm _
  have hbindings : (Tree.bindingsOf turnedReference.bindings).Perm
      (Tree.bindingsOf backwardReference.bindings) := by
    rw [Tree.bindingsOf_eq_flatMap, Tree.bindingsOf_eq_flatMap]
    exact hperm.flatMap_right _
  obtain ⟨hexists, halike⟩ :=
    reordered_build_reports_alike hlower hunsized hc hclean hkept hbindings rfl 0
  obtain ⟨root', j', hroot'⟩ := hexists hperm
  exact ⟨hlower, hunsized, c, hc, hclean, hkept, root', j', hroot', halike root' j' hroot'⟩

end Context
end Binder
