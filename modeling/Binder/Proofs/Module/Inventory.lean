import Binder.Proofs.Module.Extending
import Binder.Proofs.TypeGraph.Telling
import Mathlib.Data.List.Lex
import Mathlib.Data.List.Permutation
import Mathlib.Data.String.Basic

/-! The types that a report lists. After a build, the type at every declared path is finished: it is a
record, it knows the type around it, and the types nested in it are those at the paths that lead on. A
report shows each of them once, below the types around it, under its path; a line of it is complete
unless it mentions a type that would be spelled out for ever. -/
namespace Binder

open Binder.Tree (Expr Mark)

namespace Path

variable {p : Path}

/-- The names of the types that are declared at the top level. -/
def outermost (bindings : List Expr) : List String :=
  ((Tree.winningTypes bindings).filterMap Tree.Node.declaredType?).map Prod.fst

/-- The declared paths in the order of a report. The types at the top level stand as they are written,
each followed by the types within it; there every type comes before those nested in it, which come in
the order of their names, so that paths are in the order of words. -/
def listing (bindings : List Expr) : List Path :=
  (outermost bindings).flatMap fun n =>
    ((declared bindings).filter fun p => [n] <+: p).mergeSort fun p q => !decide (q < p)

theorem intercalate_snoc (hp : p ≠ []) (n : String) :
    ".".intercalate (p ++ [n]) = ".".intercalate p ++ "." ++ n := by
  induction p with
  | nil => exact absurd rfl hp
  | cons a rest ih =>
    cases rest with
    | nil => simp [String.intercalate_cons_cons, String.intercalate_singleton]
    | cons b rest =>
      rw [List.cons_append, List.cons_append, String.intercalate_cons_cons, ← List.cons_append,
        ih (by simp), String.intercalate_cons_cons]
      simp only [String.append_assoc]

theorem lt_append (q : Path) (n : String) : p < p ++ n :: q := by
  have h : p ++ [] < p ++ n :: q := List.append_left_lt (List.nil_lt_cons n q)
  rwa [List.append_nil] at h

theorem lt_of_prefix {q r : Path} {n m : String} (hq : p ++ [n] <+: q) (hr : p ++ [m] <+: r)
    (hlt : n < m) : q < r := by
  obtain ⟨q, rfl⟩ := hq
  obtain ⟨r, rfl⟩ := hr
  rw [List.append_assoc, List.append_assoc]
  exact List.append_left_lt (List.cons_lt_cons_iff.mpr (.inl hlt))

theorem mergeSort_eq {ps sorted : List Path} (hperm : ps.Perm sorted)
    (hsorted : sorted.Pairwise (· < ·)) : ps.mergeSort (fun p q => !decide (q < p)) = sorted := by
  have hordered : (ps.mergeSort fun p q => !decide (q < p)).Pairwise fun p q => !decide (q < p) := by
    apply List.pairwise_mergeSort
    · simpa using fun p q r hpq hqr => le_trans (α := Path) hpq hqr
    · simpa using fun p q => le_total (α := Path) p q
  have hle : (ps.mergeSort fun p q => !decide (q < p)).Pairwise fun p q => p ≤ q := hordered.imp (by simp)
  refine ((List.mergeSort_perm ps _).trans hperm).eq_of_pairwise ?_ hle (hsorted.imp le_of_lt)
  exact fun p q _ _ hpq hqp => le_antisymm hpq hqp

end Path

namespace TypeGraph

variable {g g' : TypeGraph} {ps : List Path} {symbol : Path → SymbolId} {p q : Path} {n : String}

/-- The types at some paths: each is finished, and the paths lead from a type to those nested in it. -/
structure Atlas (ps : List Path) (symbol : Path → SymbolId) (g : TypeGraph) : Prop where
  nodup : ps.Nodup
  ne_nil : [] ∉ ps
  closed : ∀ {p n}, p ++ [n] ∈ ps → p ≠ [] → p ∈ ps
  injective : ∀ {p q}, p ∈ ps → q ∈ ps → symbol p = symbol q → p = q
  named : ∀ {p n}, p ++ [n] ∈ ps → g.nameOf (symbol (p ++ [n])) = n
  made : ∀ {p}, p ∈ ps → ∃ d, g.typeOf? (symbol p) = some d ∧ d.symbol = symbol p ∧ d.kind = .record ∧
    d.container = if p.length = 1 then none else some (symbol p.dropLast)
  nested : ∀ {p d}, p ∈ ps → g.typeOf? (symbol p) = some d → ∃ ns : List String, ns.Pairwise (· < ·) ∧
    (∀ n, n ∈ ns ↔ p ++ [n] ∈ ps) ∧ d.typeScope.entries = ns.map fun n => ⟨n, symbol (p ++ [n])⟩

/-- What a report shows of the type at a path. -/
def entryAt? (g : TypeGraph) (symbol : Path → SymbolId) (p : Path) : Option Report.TypeEntry :=
  (g.typeOf? (symbol p)).map fun d =>
    ⟨some (".".intercalate p), d.members.map g.memberText, d.signatures.map g.signatureText⟩

namespace Atlas

variable (h : g.Atlas ps symbol)
include h

theorem mem_of_prefix (hp : p ∈ ps) (hq : q <+: p) (hne : q ≠ []) : q ∈ ps := by
  induction p using List.reverseRecOn with
  | nil => exact absurd (List.prefix_nil.mp hq) hne
  | append_singleton p n ih =>
    rcases List.prefix_concat_iff.mp hq with rfl | hq
    · exact hp
    · refine ih (h.closed hp ?_) hq
      rintro rfl
      exact hne (List.prefix_nil.mp hq)

/-- Different paths lead to different types. -/
theorem length_le : ps.length ≤ g.types.size := by
  have hsubset : ps.map symbol ⊆ g.types.toList.map TypeDef.symbol := by
    intro s hs
    obtain ⟨p, hp, rfl⟩ := List.mem_map.mp hs
    obtain ⟨d, hd, hsymbol, -⟩ := h.made hp
    obtain ⟨t, -, ht⟩ := Option.bind_eq_some_iff.mp hd
    exact List.mem_map.mpr ⟨d, Array.mem_toList_iff.mpr (Array.mem_of_getElem? ht), hsymbol⟩
  have hnodup : (ps.map symbol).Nodup :=
    List.Nodup.map_on (fun p hp q hq heq => h.injective hp hq heq) h.nodup
  simpa using (List.subperm_of_subset hnodup hsubset).length_le

theorem length_path_le (hp : p ∈ ps) : p.length ≤ ps.length := by
  have hsubset : (List.range p.length).map (fun k => p.take (k + 1)) ⊆ ps := by
    intro q hq
    obtain ⟨k, hk, rfl⟩ := List.mem_map.mp hq
    refine h.mem_of_prefix hp (List.take_prefix ..) ?_
    rw [List.mem_range] at hk
    simp only [ne_eq, List.take_eq_nil_iff, not_or]
    exact ⟨Nat.succ_ne_zero k, fun hnil => h.ne_nil (hnil ▸ hp)⟩
  have hnodup : ((List.range p.length).map fun k => p.take (k + 1)).Nodup := by
    refine List.Nodup.map_on ?_ List.nodup_range
    intro k hk l hl heq
    have hlength := congrArg List.length heq
    rw [List.mem_range] at hk hl
    simp only [List.length_take] at hlength
    omega
  simpa using (List.subperm_of_subset hnodup hsubset).length_le

theorem symbolText? (hnames : ∀ p ∈ ps, "" ∉ p) (hp : p ∈ ps) {depth : Nat}
    (hdepth : p.length ≤ depth) : g.symbolText? depth (symbol p) = some (".".intercalate p) := by
  induction p using List.reverseRecOn generalizing depth with
  | nil => exact absurd hp h.ne_nil
  | append_singleton p n ih =>
    obtain ⟨depth, rfl⟩ : ∃ k, depth = k + 1 := ⟨depth - 1, by simp at hdepth; omega⟩
    obtain ⟨d, hd, -, -, hcontainer⟩ := h.made hp
    have hname := h.named hp
    have hvisible : g.isAnonymous (symbol (p ++ [n])) = false := by
      rw [isAnonymous, hname, String.isEmpty_eq_false_iff]
      rintro rfl
      exact hnames _ hp (by simp)
    rw [TypeGraph.symbolText?, hvisible, hd]
    simp only [Bool.not_false, if_true, Option.bind_some, hcontainer, hname]
    by_cases hnil : p = []
    · subst hnil
      rfl
    · rw [if_neg (by simpa using hnil), List.dropLast_concat]
      simp only [List.length_append, List.length_singleton, Nat.add_le_add_iff_right] at hdepth
      simp only [ih (h.closed hp hnil) hdepth, Option.map_some, Path.intercalate_snoc hnil]

theorem symbolText (hnames : ∀ p ∈ ps, "" ∉ p) (hp : p ∈ ps) :
    g.symbolText (symbol p) = some (".".intercalate p) := by
  have hdepth : p.length ≤ g.textDepth := by
    have hpath := h.length_path_le hp
    have htypes := h.length_le
    rw [textDepth]
    omega
  exact h.symbolText? hnames hp hdepth

theorem typeEntries (hnames : ∀ p ∈ ps, "" ∉ p) : ∀ (depth : Nat) {p : Path},
    p ∈ ps → ∃ below : List Path, below.Pairwise (· < ·) ∧
      (∀ q, q ∈ below ↔ q ∈ ps ∧ p <+: q ∧ q.length < p.length + depth) ∧
      (Report.typeEntries g depth (symbol p)).map some = below.map (g.entryAt? symbol)
  | 0, p, hp => by
    refine ⟨[], .nil, fun q => ?_, rfl⟩
    simp only [List.not_mem_nil, false_iff, not_and]
    intro _ hprefix hlt
    exact absurd hprefix.length_le (by omega)
  | depth + 1, p, hp => by
    obtain ⟨d, hd, -⟩ := h.made hp
    obtain ⟨ns, hsorted, hns, hentries⟩ := h.nested hp hd
    have hall : ∀ n, ∃ below : List Path, n ∈ ns → below.Pairwise (· < ·) ∧
        (∀ q, q ∈ below ↔ q ∈ ps ∧ p ++ [n] <+: q ∧ q.length < (p ++ [n]).length + depth) ∧
        (Report.typeEntries g depth (symbol (p ++ [n]))).map some = below.map (g.entryAt? symbol) := by
      intro n
      by_cases hn : n ∈ ns
      · obtain ⟨below, hbelow⟩ := typeEntries hnames depth ((hns n).mp hn)
        exact ⟨below, fun _ => hbelow⟩
      · exact ⟨[], fun hmem => absurd hmem hn⟩
    choose below hbelow using hall
    refine ⟨p :: ns.flatMap below,
      List.pairwise_cons.mpr ⟨?_, List.pairwise_flatMap.mpr ⟨?_, ?_⟩⟩, ?_, ?_⟩
    · intro q hq
      obtain ⟨n, hn, hq⟩ := List.mem_flatMap.mp hq
      obtain ⟨-, ⟨r, rfl⟩, -⟩ := ((hbelow n hn).2.1 q).mp hq
      rw [List.append_assoc]
      exact Path.lt_append r n
    · exact fun n hn => (hbelow n hn).1
    · refine hsorted.imp_of_mem fun {n m} hn hm hlt q hq r hr => ?_
      exact Path.lt_of_prefix (((hbelow n hn).2.1 q).mp hq).2.1 (((hbelow m hm).2.1 r).mp hr).2.1 hlt
    · intro q
      rw [List.mem_cons, List.mem_flatMap]
      constructor
      · rintro (rfl | ⟨n, hn, hq⟩)
        · exact ⟨hp, List.prefix_rfl, by omega⟩
        · obtain ⟨hmem, hprefix, hlt⟩ := ((hbelow n hn).2.1 q).mp hq
          rw [List.length_append, List.length_singleton] at hlt
          exact ⟨hmem, (List.prefix_append ..).trans hprefix, by omega⟩
      · rintro ⟨hmem, ⟨r, rfl⟩, hlt⟩
        cases r with
        | nil => exact .inl (List.append_nil p)
        | cons n r =>
          have hprefix : p ++ [n] <+: p ++ n :: r := ⟨r, by simp⟩
          have hn := (hns n).mpr (h.mem_of_prefix hmem hprefix (by simp))
          refine .inr ⟨n, hn, ((hbelow n hn).2.1 _).mpr ⟨hmem, hprefix, ?_⟩⟩
          simp only [List.length_append, List.length_cons, List.length_nil] at hlt ⊢
          omega
    · rw [Report.typeEntries, hd]
      simp only [List.map_cons, hentries, List.flatMap_map, List.map_flatMap, entryAt?, hd, Option.map_some,
        h.symbolText hnames hp]
      rw [List.flatMap_congr fun n hn => (hbelow n hn).2.2]

end Atlas

end TypeGraph

namespace Context

variable {V : List SymbolId} {roots : List BuilderId} {c : Context} {p : Path} {ps : List Path}
  {declared : List DeclaredType} {i : BuilderId} {b : TypeBuilder} {g : TypeGraph}
  {bindings : List Expr} {symbol : Path → SymbolId}

theorem entries_freeze_namesOf {nested : List (SymbolId × BuilderId)}
    (hnames : ((c.namesOf nested).live.map TypeName.name).Nodup) : ∃ sorted : List TypeName,
      sorted.Perm (c.namesOf nested).live ∧ sorted.Pairwise (fun a b => a.name < b.name) ∧
      (c.namesOf nested).freeze.1.entries = sorted := by
  let sorted := (c.namesOf nested).live.mergeSort fun a b => decide (Named.name a ≤ Named.name b)
  have hperm : sorted.Perm (c.namesOf nested).live := List.mergeSort_perm ..
  have hstrict : sorted.Pairwise fun a b => a.name < b.name := by
    have hdistinct := (hperm.map TypeName.name).nodup_iff.mpr hnames
    rw [List.Nodup, List.pairwise_map] at hdistinct
    refine ((Scope.pairwise_sorted _).and hdistinct).imp ?_
    exact fun ⟨hle, hne⟩ => lt_of_le_of_ne hle hne
  refine ⟨sorted, hperm, hstrict, ?_⟩
  rw [← Scope.arrange_eq_of_perm hperm.symm hstrict]
  have hfreeze : (c.namesOf nested).freeze.1 = .merge [.ofList (c.namesOf nested).live, .empty] := rfl
  rw [hfreeze]
  cases (c.namesOf nested).live with
  | nil => simp [Scope.merge, Scope.parts, Scope.ofList, Scope.entries, Scope.arrange, firsts]
  | cons e rest => rfl

theorem Stands.nameOf_eq {name : String} (h : c.Coherent V) (hs : c.Stands roots (p ++ [name]) i)
    (hb : c.builders[i.index]? = some b) : c.graph.nameOf b.symbol = name := by
  rcases hs.of_snoc with ⟨-, -, b', hb', hname⟩ | ⟨j, b', x, -, hb', hx, hname, rfl⟩
  · cases hb.symm.trans hb'
    exact hname
  · obtain ⟨child, hchild, hsymbol, -⟩ := (h.laid hb').nested x hx
    cases hb.symm.trans hchild
    exact hsymbol ▸ hname

/-- Where all types are finished, their paths lead through the types themselves. -/
theorem Charts.atlas (hc : c.Charts roots ps) (h : c.Standing V []) (hheads : c.Heads declared roots)
    (hgrows : c.graph.Grows g) (hnames : c.graph.names <+: g.names) :
    ∃ symbol, g.Atlas ps symbol ∧
      ∀ {p i b}, c.Stands roots p i → c.builders[i.index]? = some b → symbol p = b.symbol := by
  have hunique : ∀ p, ∃ s, ∀ {i b}, c.Stands roots p i → c.builders[i.index]? = some b → s = b.symbol := by
    intro p
    by_cases hp : ∃ i, c.Stands roots p i
    · obtain ⟨i, hi⟩ := hp
      obtain ⟨b, hb⟩ := hi.builder h.toCoherent
      refine ⟨b.symbol, fun {j b'} hj hb' => ?_⟩
      cases hc.builder hi hj
      cases hb.symm.trans hb'
      rfl
    · exact ⟨Prelude.error, fun hi => absurd ⟨_, hi⟩ hp⟩
  choose symbol hsymbol using hunique
  have hstands : ∀ {p}, p ∈ ps → ∃ i b, c.Stands roots p i ∧ c.builders[i.index]? = some b := by
    intro p hp
    obtain ⟨i, hi⟩ := hc.mem_iff.mp hp
    obtain ⟨b, hb⟩ := hi.builder h.toCoherent
    exact ⟨i, b, hi, hb⟩
  have hmade : ∀ {p i b}, c.Stands roots p i → c.builders[i.index]? = some b → ∃ d,
      g.typeOf? (symbol p) = some d ∧ d.symbol = symbol p ∧ d.kind = .record ∧
      d.container = b.container ∧ d.typeScope = (c.namesOf b.nested).freeze.1 := by
    intro p i b hi hb
    rw [hsymbol p hi hb]
    obtain ⟨t, ht⟩ := h.exists_bound hb
    obtain ⟨d, hd, hfields⟩ := (h.laid hb).made ht
    exact ⟨d, Option.bind_eq_some_iff.mpr ⟨t, hgrows.bound ht, hgrows.defs hd⟩, hfields⟩
  refine ⟨symbol, ⟨hc.nodup, ?_, ?_, ?_, ?_, ?_, ?_⟩, fun hs hb => hsymbol _ hs hb⟩
  · intro hnil
    obtain ⟨i, hi⟩ := hc.mem_iff.mp hnil
    exact hi.ne_nil rfl
  · intro p n hp hne
    obtain ⟨i, hi⟩ := hc.mem_iff.mp hp
    rcases hi.of_snoc with ⟨hnil, -⟩ | ⟨j, -, -, hj, -⟩
    · exact absurd hnil hne
    · exact hc.mem_iff.mpr ⟨j, hj⟩
  · intro p q hp hq heq
    obtain ⟨i, b, hi, hb⟩ := hstands hp
    obtain ⟨j, b', hj, hb'⟩ := hstands hq
    rw [hsymbol p hi hb, hsymbol q hj hb'] at heq
    obtain rfl : i = j := congrArg BuilderId.mk (h.distinct hb hb' heq)
    exact hc.path hi hj
  · intro p n hp
    obtain ⟨i, b, hi, hb⟩ := hstands hp
    rw [hsymbol _ hi hb, TypeGraph.nameOf_eq_of_prefix hnames (h.builder hb).2.2.2]
    exact hi.nameOf_eq h.toCoherent hb
  · intro p hp
    obtain ⟨i, b, hi, hb⟩ := hstands hp
    obtain ⟨d, hd, hown, hkind, hcontainer, -⟩ := hmade hi hb
    refine ⟨d, hd, hown, hkind, hcontainer.trans ?_⟩
    obtain ⟨q, n, rfl⟩ := (List.eq_nil_or_concat p).resolve_left hi.ne_nil
    rw [List.concat_eq_append] at hi ⊢
    rcases hi.of_snoc with ⟨rfl, hr, -⟩ | ⟨j, b', x, hj, hb', hx, -, rfl⟩
    · obtain ⟨_, -, b', hb', -, hnone⟩ := hheads.of_mem hr
      cases hb.symm.trans hb'
      exact hnone
    · obtain ⟨child, hchild, -, haround⟩ := (h.laid hb').nested x hx
      cases hb.symm.trans hchild
      rw [if_neg (by simpa using hj.ne_nil), List.dropLast_concat, hsymbol q hj hb', haround]
  · intro p d hp hd
    obtain ⟨i, b, hi, hb⟩ := hstands hp
    obtain ⟨d', hd', -, -, -, hscope⟩ := hmade hi hb
    cases hd.symm.trans hd'
    obtain ⟨sorted, hperm, hsorted, hentries⟩ := entries_freeze_namesOf (h.laid hb).names
    have hmem : ∀ e : TypeName, e ∈ sorted ↔ ∃ x ∈ b.nested, ⟨c.graph.nameOf x.1, x.1⟩ = e := by
      simp [hperm.mem_iff, namesOf]
    refine ⟨sorted.map TypeName.name, List.pairwise_map.mpr hsorted, fun n => ?_, ?_⟩
    · rw [List.mem_map, hc.mem_iff]
      simp only [hmem, hc.stands_snoc hi hb]
      constructor
      · rintro ⟨_, ⟨x, hx, rfl⟩, rfl⟩
        exact ⟨x.2, x, hx, rfl, rfl⟩
      · rintro ⟨_, x, hx, rfl, rfl⟩
        exact ⟨_, ⟨x, hx, rfl⟩, rfl⟩
    · rw [hscope, hentries, List.map_map]
      refine (List.map_congr_left fun e he => ?_).trans (List.map_id _) |>.symm
      obtain ⟨x, hx, rfl⟩ := (hmem e).mp he
      obtain ⟨child, hchild, hown, -⟩ := (h.laid hb).nested x hx
      simp only [Function.comp_apply, hsymbol _ (.nested hi hb hx) hchild, hown, id]

/-- What a build has made of the declared types, whose symbols are given. -/
structure Lists (bindings : List Expr) (symbol : Path → SymbolId) (c : Context) : Prop where
  outermost : c.declared.map (fun d => (d.entry.name, d.entry.symbol)) =
    (Path.outermost bindings).map fun n => (n, symbol [n])
  record : ∀ p ∈ Path.declared bindings, ∃ d, c.graph.typeOf? (symbol p) = some d ∧
    d.symbol = symbol p ∧ d.kind = .record ∧
    d.container = (if p.length = 1 then none else some (symbol p.dropLast)) ∧
    ∀ n s, ⟨n, s⟩ ∈ d.typeScope.entries ↔ p ++ [n] ∈ Path.declared bindings ∧ s = symbol (p ++ [n])
  once : ((Path.declared bindings).map symbol).Nodup
  all : (Path.listing bindings).Perm (Path.declared bindings)
  types : (Report.ofContext c).types.map some = (Path.listing bindings).map (c.graph.entryAt? symbol)

theorem listing_perm (h : g.Atlas (Path.declared bindings) symbol)
    (hnodup : (Path.outermost bindings).Nodup)
    (htop : ∀ n, [n] ∈ Path.declared bindings ↔ n ∈ Path.outermost bindings) :
    (Path.listing bindings).Perm (Path.declared bindings) := by
  have hsorted : (Path.listing bindings).Perm ((Path.outermost bindings).flatMap fun n =>
      (Path.declared bindings).filter fun p => [n] <+: p) :=
    List.Perm.flatMap_left _ fun n _ => List.mergeSort_perm ..
  refine hsorted.trans ((List.perm_ext_iff_of_nodup ?_ h.nodup).mpr fun p => ?_)
  · refine List.nodup_flatMap.mpr ⟨fun n _ => h.nodup.filter _, hnodup.imp fun {n m} hne p hn hm => ?_⟩
    obtain ⟨-, hn⟩ := List.mem_filter.mp hn
    obtain ⟨-, hm⟩ := List.mem_filter.mp hm
    obtain ⟨q, rfl⟩ := of_decide_eq_true hn
    exact hne (by simpa using hm : m = n).symm
  · rw [List.mem_flatMap]
    constructor
    · rintro ⟨n, -, hp⟩
      exact (List.mem_filter.mp hp).1
    · intro hp
      cases p with
      | nil => exact absurd hp h.ne_nil
      | cons n rest =>
        have hn : [n] <+: n :: rest := ⟨rest, rfl⟩
        exact ⟨n, (htop n).mp (h.mem_of_prefix hp hn (by simp)), List.mem_filter.mpr ⟨hp, decide_eq_true hn⟩⟩

theorem lists_of_atlas (h : c.graph.Atlas (Path.declared bindings) symbol)
    (hnames : ∀ p ∈ Path.declared bindings, "" ∉ p)
    (hnodup : (Path.outermost bindings).Nodup)
    (htop : ∀ n, [n] ∈ Path.declared bindings ↔ n ∈ Path.outermost bindings)
    (houtermost : c.declared.map (fun d => (d.entry.name, d.entry.symbol)) =
      (Path.outermost bindings).map fun n => (n, symbol [n])) : c.Lists bindings symbol where
  outermost := houtermost
  record p hp := by
    obtain ⟨d, hd, hown, hkind, hcontainer⟩ := h.made hp
    refine ⟨d, hd, hown, hkind, hcontainer, fun n s => ?_⟩
    obtain ⟨ns, -, hns, hentries⟩ := h.nested hp hd
    rw [hentries, List.mem_map, ← hns]
    constructor
    · rintro ⟨m, hm, heq⟩
      cases heq
      exact ⟨hm, rfl⟩
    · rintro ⟨hn, rfl⟩
      exact ⟨n, hn, rfl⟩
  once := List.Nodup.map_on (fun p hp q hq heq => h.injective hp hq heq) h.nodup
  all := listing_perm h hnodup htop
  types := by
    have hflat : (Report.ofContext c).types = (Path.outermost bindings).flatMap fun n =>
        Report.typeEntries c.graph c.graph.types.size (symbol [n]) := by
      have heq := congrArg (List.flatMap fun x : String × SymbolId =>
        Report.typeEntries c.graph c.graph.types.size x.2) houtermost
      rwa [List.flatMap_map, List.flatMap_map] at heq
    rw [hflat, Path.listing, List.map_flatMap, List.map_flatMap]
    refine List.flatMap_congr fun n hn => ?_
    obtain ⟨below, hsorted, hmem, hentries⟩ := h.typeEntries hnames c.graph.types.size ((htop n).mpr hn)
    rw [hentries, Path.mergeSort_eq ?_ hsorted]
    refine (List.perm_ext_iff_of_nodup (h.nodup.filter _) (hsorted.imp ne_of_lt)).mpr fun p => ?_
    rw [List.mem_filter, hmem, decide_eq_true_eq]
    refine and_congr_right fun hp => (and_iff_left_of_imp fun _ => ?_).symm
    have hpath := h.length_path_le hp
    have htypes := h.length_le
    rw [List.length_singleton]
    omega

theorem Lists.isSome_typeLines (h : c.Lists bindings symbol) :
    (∀ e ∈ (Report.ofContext c).types, (Report.typeLine e).isSome) ↔
      ∀ p ∈ Path.declared bindings, ∀ d, c.graph.typeOf? (symbol p) = some d →
        ∀ s ∈ d.shown, c.graph.Tellable s := by
  have hmem (e : Report.TypeEntry) : e ∈ (Report.ofContext c).types ↔
      ∃ p ∈ Path.declared bindings, c.graph.entryAt? symbol p = some e := by
    rw [← List.mem_map_of_injective (Option.some_injective _), h.types, List.mem_map]
    simp only [h.all.mem_iff]
  constructor
  · intro hlines p hp d hd
    obtain ⟨d', hd', -, hkind, -⟩ := h.record p hp
    cases hd.symm.trans hd'
    refine (TypeGraph.isSome_typeLine (".".intercalate p) hkind).mp
      (hlines _ ((hmem _).mpr ⟨p, hp, ?_⟩))
    rw [TypeGraph.entryAt?, hd, Option.map_some]
  · intro htell e he
    obtain ⟨p, hp, hentry⟩ := (hmem e).mp he
    obtain ⟨d, hd, -, hkind, -⟩ := h.record p hp
    rw [TypeGraph.entryAt?, hd] at hentry
    cases hentry
    exact (TypeGraph.isSome_typeLine _ hkind).mpr (htell p hp d hd)

theorem Lists.isSome_text (h : c.Lists bindings symbol) :
    (Report.ofContext c).text.isSome ↔ (Report.ofContext c).module.isSome ∧
      (∀ p ∈ Path.declared bindings, ∀ d, c.graph.typeOf? (symbol p) = some d →
        ∀ s ∈ d.shown, c.graph.Tellable s) ∧
      (∀ v ∈ c.values, c.graph.Tellable v.member.type) ∧ ∀ d ∈ c.diagnostics, d.message.isSome := by
  rw [TypeGraph.isSome_reportText, h.isSome_typeLines]
  simp only [Report.ofContext, Report.ofDiagnostic, List.forall_mem_map, TypeGraph.isSome_symbolText]

/-- Every declared type is made and is listed once. There is a report exactly if each text in it comes to
an end: those of the module, of what the declared types mention, of the types of the values, and of what
was found wrong. -/
theorem build_lists_types {d : Document} {k k' : Nat} {root : Expr} (name : String)
    (hlower : d.lower k = .ok root k') (hnames : ∀ p ∈ Path.declared root.bindings, "" ∉ p) :
    ∃ c t symbol, (initial name).build root = (c, .ok t) ∧ c.Lists root.bindings symbol ∧
      ((Report.ofContext c).text.isSome ↔ (Report.ofContext c).module.isSome ∧
        (∀ p ∈ Path.declared root.bindings, ∀ d, c.graph.typeOf? (symbol p) = some d →
          ∀ s ∈ d.shown, c.graph.Tellable s) ∧
        (∀ v ∈ c.values, c.graph.Tellable v.member.type) ∧ ∀ d ∈ c.diagnostics, d.message.isSome) := by
  have honce := Document.count_lower_le_one hlower
  have hi := Build.declareAll_eq name root
  have hdeclared := declared_named name root.bindings
  have haccepts := accepts_named name root.bindings
  generalize named name root.bindings = i at hi hdeclared haccepts
  obtain ⟨t, c, hc, hfulfils⟩ := Build.accomplish_ends hdeclared haccepts honce
  obtain ⟨f, hf, hgrows, hprefix⟩ := hfulfils.made
  obtain ⟨roots, hstanding, hheads, hnamed, hcharts⟩ := (Build.makeTypes_charts hdeclared haccepts).of_eq hf
  obtain ⟨symbol, hatlas, hsymbol⟩ := hcharts.atlas hstanding hheads hgrows hprefix
  suffices hlists : c.Lists root.bindings symbol from
    ⟨c, t, symbol, by rw [Context.build, after, Build.build_eq_accomplish, Build.bind_of_ok hi, hc],
      hlists, hlists.isSome_text⟩
  have hnames' : Path.outermost root.bindings = i.declared.map fun d => d.entry.name := by
    rw [Path.outermost, ← haccepts.types, List.map_map]
    rfl
  have hroot : ∀ d ∈ i.declared, ∃ r, f.Stands roots [d.entry.name] r ∧
      d.entry.symbol = symbol [d.entry.name] := by
    intro d hd
    obtain ⟨r, hr, b, hb, hown⟩ := hheads.of_declared hd
    have hs := Stands.root hr hb
    rw [hown, hnamed d hd] at hs
    exact ⟨r, hs, by rw [hsymbol hs hb, hown]⟩
  refine lists_of_atlas hatlas hnames ?_ ?_ ?_
  · have hall := haccepts.names
    rw [declarations, List.map_append, List.map_map] at hall
    exact hnames' ▸ (List.nodup_append.mp hall).1
  · intro n
    rw [hcharts.mem_iff, hnames', List.mem_map]
    constructor
    · rintro ⟨r, hr⟩
      obtain ⟨d, hd, -, -, -, -, hname⟩ := hheads.of_stands hr
      exact ⟨d, hd, (hnamed d hd).symm.trans hname⟩
    · rintro ⟨d, hd, rfl⟩
      obtain ⟨r, hr, -⟩ := hroot d hd
      exact ⟨r, hr⟩
  · rw [hfulfils.declared, hnames', List.map_map]
    refine List.map_congr_left fun d hd => ?_
    obtain ⟨-, -, hown⟩ := hroot d hd
    rw [Function.comp_apply, ← hown]

/-- Types in two layers, of which an extension adds the innermost and is refused a second time. -/
def layeredTypes : Document where
  bindings := [
    .definition none false "Shape" none (some (.typeLiteral none [
      .nested "Point" (.typeLiteral none [.field "x" (.ident none "Int") false]),
      .nested "Edge" (.typeLiteral none [])])),
    .extension none (.selection none (.ident none "Shape") "Edge") [
      .nested "End" (.typeLiteral none []),
      .nested "End" (.typeLiteral none [])],
    .definition none false "Page" none (some (.typeLiteral none []))]

def layeredRoot : Expr := layeredTypes.root

/-- A field of a type without a name that has a type nested in it and mentions it. -/
def endlessType : Document where
  bindings := [
    .definition none false "T" none (some (.typeLiteral none [
      .field "f" (.typeLiteral none [
        .field "a" (.ident none "N") false,
        .nested "N" (.typeLiteral none [])]) false]))]

def endlessRoot : Expr := endlessType.root

/-- Both documents are built, but of the second one there is no report. -/
theorem build_lists_types_layered_endless :
    (layeredTypes.lower 0 = .ok layeredRoot 14 ∧
      Path.declared layeredRoot.bindings =
        [["Shape"], ["Shape", "Point"], ["Shape", "Edge"], ["Page"], ["Shape", "Edge", "End"]] ∧
      ∃ c t symbol, (initial "main").build layeredRoot = (c, .ok t) ∧
        c.Lists layeredRoot.bindings symbol) ∧
    endlessType.lower 0 = .ok endlessRoot 5 ∧ Path.declared endlessRoot.bindings = [["T"]] ∧
    (∃ c t symbol, (initial "main").build endlessRoot = (c, .ok t) ∧
      c.Lists endlessRoot.bindings symbol) ∧
    (Binder.bind endlessType "main").map Report.types = .ok [⟨some "T", [none], []⟩] ∧
    (Binder.bind endlessType "main").map Report.text = .ok none := by
  have hlayered : layeredTypes.lower 0 = .ok layeredRoot 14 := rfl
  have hlayers : Path.declared layeredRoot.bindings =
      [["Shape"], ["Shape", "Point"], ["Shape", "Edge"], ["Page"], ["Shape", "Edge", "End"]] := by
    decide +kernel
  have hendless : endlessType.lower 0 = .ok endlessRoot 5 := rfl
  have hlone : Path.declared endlessRoot.bindings = [["T"]] := by decide +kernel
  obtain ⟨c, t, symbol, hbuild, hlists, -⟩ :=
    build_lists_types "main" hlayered (by rw [hlayers]; decide)
  obtain ⟨c', t', symbol', hbuild', hlists', -⟩ :=
    build_lists_types "main" hendless (by rw [hlone]; decide)
  exact ⟨⟨hlayered, hlayers, c, t, symbol, hbuild, hlists⟩, hendless, hlone,
    ⟨c', t', symbol', hbuild', hlists'⟩, by decide +kernel, by decide +kernel⟩

end Context

end Binder
