import Binder.Proofs.Module.Coherence

/-! Opening, filling and finishing builders. A builder is opened for a symbol that nobody else binds;
once a builder and all builders within it are finished, their symbols are bound. -/
namespace Binder

open Binder.Tree (Expr Mark)
open Relation (ReflTransGen)

namespace Context

variable {V : List SymbolId} {roots : List BuilderId} {c c' : Context} {s : SymbolId}
  {i j : Nat} {b b' x : TypeBuilder} {bs : Array TypeBuilder}

theorem Coherent.hasSymbol (h : c.Coherent V) (hs : c.Known V s) : c.graph.HasSymbol s := by
  rcases hs.2.1 with hbound | ⟨i, b, hb, rfl⟩
  · obtain ⟨t, ht⟩ := TypeGraph.isBound_iff.mp hbound
    exact .of_bound? ht
  · exact (h.builder hb).2.2.2

theorem ne_error_of_le (h : Prelude.graph.symbols.size ≤ s.index) : s ≠ Prelude.error := by
  rintro rfl
  exact absurd h (by decide)

theorem Coherent.newType (h : c.Coherent V) {d : TypeDef} (hunbound : c.graph.isUnbound d.symbol)
    (hV : d.symbol ∉ V) (huses : ∀ s ∈ d.uses, c.Known V s)
    (hpart : ∀ e, d.kind.part? = some e → e.index < d.symbol.index) (hkind : d.kind ≠ .error)
    (hkept : ∀ {signature p e}, signature ∈ d.signatures → p ∈ signature.parameters →
      p.fallback = some e → (e, p.type) ∈ c.fallbacks)
    (hplain : d.typeScope = .empty ∨
      ∃ (i : Nat) (b : TypeBuilder), c.builders[i]? = some b ∧ b.symbol = d.symbol)
    (hmade : ∀ {i : Nat} {b : TypeBuilder}, c.builders[i]? = some b → b.symbol = d.symbol → d = b.made) :
    Resolves V c (c.setGraph (c.graph.newType d).2) ∧
      (c.setGraph (c.graph.newType d).2).Coherent V := by
  have hr : Resolves V c (c.setGraph (c.graph.newType d).2) := by
    refine resolves_setGraph (TypeGraph.grows_newType d) (by simp) fun s hs => ?_
    rw [TypeGraph.bound?_newType_of_isUnbound hunbound, if_neg]
    rintro rfl
    exact hV hs
  have hbound := TypeGraph.bound?_newType_of_isUnbound hunbound
  refine ⟨hr, h.setGraph hr (h.graph.newType hunbound hV huses hpart hkind) ?_ ?_ ?_⟩
  · intro t d' signature p e hd
    rw [TypeGraph.def?_newType] at hd
    split at hd
    · cases hd
      exact hkept
    · exact h.kept hd
  · intro i b hb
    by_cases heq : b.symbol = d.symbol
    · obtain ⟨hnames, hnested, htypes, -⟩ := h.laid hb
      have hscope := h.namesOf_eq hb hr.names
      have hnew : (c.graph.newType d).2.bound? b.symbol = some ⟨c.graph.types.size⟩ := by
        rw [hbound, if_pos heq]
      refine ⟨hscope ▸ hnames, hnested, fun hnone => absurd (hnew.symm.trans hnone) (by simp), ?_⟩
      intro t ht
      cases hnew.symm.trans ht
      refine ⟨d, by rw [graph_setGraph, TypeGraph.def?_newType, if_pos rfl], heq.symm, ?_, ?_, ?_⟩
      · rw [hmade hb heq]
        exact (h.builder hb).1
      · rw [hmade hb heq]
        rfl
      · rw [hscope, ← htypes (heq ▸ (TypeGraph.isUnbound_iff.mp hunbound).2), hmade hb heq]
        rfl
    · refine h.laid_of_grows hb hr.graph hr.names hr.builders fun hnone => ?_
      rw [graph_setGraph, hbound, if_neg heq, hnone]
  · intro t d' hd
    rw [TypeGraph.def?_newType] at hd
    split at hd
    · cases hd
      exact hplain
    · exact h.plain hd

theorem Standing.newAnonymous (h : c.Standing V roots) {kind : TypeKind} (hkind : kind ≠ .error)
    (hpart : ∀ e, kind.part? = some e → c.Known V e) :
    Resolves V c (c.setGraph (c.graph.newAnonymous kind).2) ∧
      (c.setGraph (c.graph.newAnonymous kind).2).Standing V roots ∧
      (c.setGraph (c.graph.newAnonymous kind).2).Known V (c.graph.newAnonymous kind).1 := by
  obtain ⟨hr, hstanding, hfree⟩ := h.newSymbol ""
  let d : TypeDef := { symbol := (c.graph.newSymbol "").1, kind := kind }
  have huses : ∀ s ∈ d.uses, c.Known V s := by
    intro s hs
    simp only [TypeDef.uses, d, Scope.ofList, Scope.tables, List.isEmpty_nil, ↓reduceIte,
      List.flatten_nil, List.map_nil, List.append_nil, List.flatMap_nil, Option.toList_none,
      Option.mem_toList] at hs
    exact hpart s hs
  have hbefore : ∀ e, d.kind.part? = some e → e.index < d.symbol.index := fun e he =>
    h.toCoherent.hasSymbol (hpart e he)
  have hbound := TypeGraph.bound?_newType_of_isUnbound (d := d) hfree.unbound
  obtain ⟨hr', hcoherent⟩ := hstanding.toCoherent.newType (d := d) hfree.unbound hfree.notMem
    (fun s hs => hr.known (huses s hs)) hbefore hkind (fun hsignature => by cases hsignature)
    (.inl rfl) (fun hb heq => absurd heq (hfree.unused hb))
  refine ⟨hr.trans hr', hstanding.setGraph hcoherent ?_, hfree.notMem, .inl ?_,
    fun _ => ne_error_of_le hfree.own⟩
  · intro i b hb
    exact (hbound b.symbol).trans (if_neg (hfree.unused hb))
  · exact TypeGraph.isBound_iff.mpr ⟨_, (hbound d.symbol).trans (if_pos rfl)⟩

theorem getElem?_push_of_some (hx : bs[i]? = some x) (b : TypeBuilder) :
    (bs.push b)[i]? = some x := by
  obtain ⟨hlt, rfl⟩ := Array.getElem?_eq_some_iff.mp hx
  exact Array.getElem?_push_lt hlt

theorem getElem?_push_cases (hx : (bs.push b)[i]? = some x) :
    (i = bs.size ∧ x = b) ∨ (i < bs.size ∧ bs[i]? = some x) := by
  rw [Array.getElem?_push] at hx
  split at hx
  next heq =>
    cases hx
    exact .inl ⟨heq, rfl⟩
  next => exact .inr ⟨(Array.getElem?_eq_some_iff.mp hx).1, hx⟩

theorem nestedOf_push (bs : Array TypeBuilder) (hb : b.nested = []) :
    nestedOf (bs.push b) = nestedOf bs := by
  funext i
  simp only [nestedOf, Array.getElem?_push]
  split
  next heq => simp [heq, hb]
  next => rfl

theorem getElem?_set_self (hb : bs[i]? = some b) (b' : TypeBuilder) :
    (bs.setIfInBounds i b')[i]? = some b' :=
  Array.getElem?_setIfInBounds_self_of_lt (Array.getElem?_eq_some_iff.mp hb).1

theorem getElem?_set_cases (hx : (bs.setIfInBounds i b')[j]? = some x) :
    (j = i ∧ x = b') ∨ (j ≠ i ∧ bs[j]? = some x) := by
  by_cases hj : i = j
  · subst hj
    rw [Array.getElem?_setIfInBounds_self] at hx
    split at hx
    · cases hx
      exact .inl ⟨rfl, rfl⟩
    · cases hx
  · rw [Array.getElem?_setIfInBounds_ne hj] at hx
    exact .inr ⟨fun heq => hj heq.symm, hx⟩

theorem nestedOf_set (hb : bs[i]? = some b) (hn : b'.nested = b.nested) :
    nestedOf (bs.setIfInBounds i b') = nestedOf bs := by
  funext k
  simp only [nestedOf]
  by_cases hk : i = k.index
  · subst hk
    rw [getElem?_set_self hb, hb]
    simp [hn]
  · rw [Array.getElem?_setIfInBounds_ne hk]

theorem nestedOf_nest {k : BuilderId} (hb : bs[i]? = some b) (hn : b'.nested = b.nested ++ [(s, k)])
    (j : BuilderId) : nestedOf (bs.setIfInBounds i b') j =
      if j = ⟨i⟩ then nestedOf bs j ++ [k] else nestedOf bs j := by
  simp only [nestedOf]
  split
  next hj =>
    subst hj
    rw [getElem?_set_self hb, hb]
    simp [hn]
  next hj => rw [Array.getElem?_setIfInBounds_ne fun heq => hj (congrArg BuilderId.mk heq.symm)]

theorem resolves_push (b : TypeBuilder) :
    Resolves V c (c.setBuilders (c.builders.push b)) where
  backdrop := rfl
  graph := .refl _
  names := List.prefix_rfl
  values _ _ := rfl
  builders hb' := ⟨_, getElem?_push_of_some hb' b, rfl, rfl⟩
  fallbacks := List.prefix_rfl
  diagnostics := List.prefix_rfl

theorem Standing.push (h : c.Standing V roots) (hfree : c.Free V b.symbol) (hkind : b.kind = .record)
    (huses : ∀ s ∈ b.uses, c.Known V s) (hsignatures : b.signatures = []) (hnested : b.nested = [])
    (htypes : b.typeScope = .empty) :
    (c.setBuilders (c.builders.push b)).Standing V (⟨c.builders.size⟩ :: roots) := by
  have hr : Resolves V c (c.setBuilders (c.builders.push b)) := resolves_push b
  have hnestedOf := nestedOf_push c.builders hnested
  have hwithin := fun {y r : BuilderId} => within_congr (y := y) (r := r) hnestedOf
  have hbelow : ∀ r ∈ roots, r ≠ ⟨c.builders.size⟩ := by
    rintro r hmem rfl
    exact absurd (h.outermost _ hmem).1 (Nat.lt_irrefl _)
  refine
    { graph := h.graph.mono fun _ => hr.known
      quiet := h.quiet
      forest := h.forest.congr hnestedOf (by simp)
      builder := ?_, distinct := ?_, uses := ?_, offered := ?_, kept := h.kept, laid := ?_, plain := ?_
      nodup := List.nodup_cons.mpr ⟨fun hmem => hbelow _ hmem rfl, h.nodup⟩
      outermost := ?_, open_iff := ?_ }
  · intro i x hx
    rcases getElem?_push_cases hx with ⟨-, rfl⟩ | ⟨-, hx⟩
    · exact ⟨hkind, hfree.notMem, hfree.own, (TypeGraph.isUnbound_iff.mp hfree.unbound).1⟩
    · exact h.builder hx
  · intro i j x y hx hy heq
    rcases getElem?_push_cases hx with ⟨hi, rfl⟩ | ⟨-, hx'⟩ <;> rcases getElem?_push_cases hy with ⟨hj, rfl⟩ | ⟨-, hy'⟩
    · exact hi.trans hj.symm
    · exact absurd heq.symm (hfree.unused hy')
    · exact absurd heq (hfree.unused hx')
    · exact h.distinct hx' hy' heq
  · intro i x s hx hs
    rcases getElem?_push_cases hx with ⟨-, rfl⟩ | ⟨-, hx⟩
    · exact hr.known (huses s hs)
    · exact hr.known (h.uses hx hs)
  · intro i x signature p e hx hsignature
    rcases getElem?_push_cases hx with ⟨-, rfl⟩ | ⟨-, hx⟩
    · rw [hsignatures] at hsignature
      cases hsignature
    · exact h.offered hx hsignature
  · intro i x hx
    rcases getElem?_push_cases hx with ⟨-, rfl⟩ | ⟨-, hx⟩
    · refine ⟨by simp [namesOf, hnested], by simp [hnested], fun _ => by rw [htypes, hnested]; rfl, ?_⟩
      intro t ht
      rw [graph_setBuilders, (TypeGraph.isUnbound_iff.mp hfree.unbound).2] at ht
      cases ht
    · exact h.laid_of_grows hx hr.graph hr.names hr.builders id
  · intro t d hd
    refine (h.plain hd).imp_right ?_
    rintro ⟨i, x, hx, hsymbol⟩
    obtain ⟨x', hx', hsymbol', -⟩ := hr.builders hx
    exact ⟨i, x', hx', hsymbol'.trans hsymbol⟩
  · intro r hmem
    simp only [builders_setBuilders, NestedIn, hnestedOf, Array.size_push]
    rcases List.mem_cons.mp hmem with rfl | hmem
    · refine ⟨Nat.lt_succ_self _, fun i hn => ?_⟩
      exact absurd (h.forest.later hn).2 (Nat.lt_irrefl _)
    · exact ⟨Nat.lt_succ_of_lt (h.outermost r hmem).1, (h.outermost r hmem).2⟩
  · intro i x hx
    simp only [graph_setBuilders, builders_setBuilders, hwithin]
    rcases getElem?_push_cases hx with ⟨rfl, rfl⟩ | ⟨hlt, hx⟩
    · exact iff_of_true (TypeGraph.isUnbound_iff.mp hfree.unbound).2
        ⟨_, List.mem_cons_self, .refl⟩
    · rw [h.open_iff hx]
      constructor
      · rintro ⟨r, hmem, hw⟩
        exact ⟨r, List.mem_cons_of_mem _ hmem, hw⟩
      · rintro ⟨r, hmem, hw⟩
        rcases List.mem_cons.mp hmem with rfl | hmem
        · have hle : c.builders.size ≤ i := h.forest.le_of_within hw
          omega
        · exact ⟨r, hmem, hw⟩

theorem resolves_set (hb : c.builders[i]? = some b) (hsymbol : b'.symbol = b.symbol)
    (hcontainer : b'.container = b.container) :
    Resolves V c (c.setBuilders (c.builders.setIfInBounds i b')) where
  backdrop := rfl
  graph := .refl _
  names := List.prefix_rfl
  values _ _ := rfl
  builders := by
    intro j x hx
    by_cases hj : i = j
    · subst hj
      cases hb.symm.trans hx
      exact ⟨b', getElem?_set_self hb b', hsymbol, hcontainer⟩
    · exact ⟨x, (Array.getElem?_setIfInBounds_ne hj).trans hx, rfl, rfl⟩
  fallbacks := List.prefix_rfl
  diagnostics := List.prefix_rfl

/-- What a builder may become: it mentions known symbols, and its fallbacks are kept. -/
structure Becomes (V : List SymbolId) (c : Context) (b b' : TypeBuilder) : Prop where
  symbol : b'.symbol = b.symbol
  kind : b'.kind = b.kind
  container : b'.container = b.container
  uses : ∀ s ∈ b'.uses, c.Known V s
  offered : ∀ {signature p e}, signature ∈ b'.signatures → p ∈ signature.parameters →
    p.fallback = some e → (e, p.type) ∈ c.fallbacks

theorem Coherent.becomes_addMember (h : c.Coherent V) (hb : c.builders[i]? = some b) {m : Member}
    (hm : c.Known V m.type) : Becomes V c b (b.addMember m).2 where
  symbol := (TypeBuilder.of_outline_eq (b.outline_addMember m)).1
  kind := (TypeBuilder.place_of_outline_eq (b.outline_addMember m)).1
  container := (TypeBuilder.place_of_outline_eq (b.outline_addMember m)).2
  uses s hs := by
    rcases TypeBuilder.mem_uses_of_addMember hs with rfl | hs
    · exact hm
    · exact h.uses hb hs
  offered hsignature := h.offered hb (b.signatures_addMember m ▸ hsignature)

theorem Coherent.becomes_addSignature (h : c.Coherent V) (hb : c.builders[i]? = some b)
    {signature : Signature} (hs : ∀ s ∈ signature.uses, c.Known V s)
    (hoffered : ∀ {p e}, p ∈ signature.parameters → p.fallback = some e →
      (e, p.type) ∈ c.fallbacks) : Becomes V c b (b.addSignature signature) where
  symbol := rfl
  kind := rfl
  container := rfl
  uses s hmem := by
    rcases TypeBuilder.mem_uses_of_addSignature hmem with hmem | hmem
    · exact hs s hmem
    · exact h.uses hb hmem
  offered := by
    intro signature' p e hmem
    rcases List.mem_append.mp hmem with hold | hnew
    · exact h.offered hb hold
    · rw [List.mem_singleton.mp hnew]
      exact hoffered

theorem Coherent.set (h : c.Coherent V) (hb : c.builders[i]? = some b) (hbecomes : Becomes V c b b')
    (hforest : Forest (c.builders.setIfInBounds i b'))
    (hlaid : (c.setBuilders (c.builders.setIfInBounds i b')).Laid b') :
    (c.setBuilders (c.builders.setIfInBounds i b')).Coherent V := by
  have hr := resolves_set (V := V) hb hbecomes.symbol hbecomes.container
  have hold : ∀ {j : Nat} {x : TypeBuilder}, (c.builders.setIfInBounds i b')[j]? = some x →
      ∃ y, c.builders[j]? = some y ∧ x.symbol = y.symbol ∧ x.kind = y.kind := by
    intro j x hx
    rcases getElem?_set_cases hx with ⟨rfl, rfl⟩ | ⟨-, hx⟩
    · exact ⟨b, hb, hbecomes.symbol, hbecomes.kind⟩
    · exact ⟨x, hx, rfl, rfl⟩
  refine
    { graph := h.graph.mono fun _ => hr.known
      quiet := h.quiet
      forest := hforest
      builder := ?_, distinct := ?_, uses := ?_, offered := ?_, kept := h.kept, laid := ?_, plain := ?_ }
  · intro j x hx
    obtain ⟨y, hy, hsymbol, hkind⟩ := hold hx
    rw [hsymbol, hkind]
    exact h.builder hy
  · intro j k x y hx hy heq
    obtain ⟨x', hx', hsymbol, -⟩ := hold hx
    obtain ⟨y', hy', hsymbol', -⟩ := hold hy
    exact h.distinct hx' hy' (hsymbol.symm.trans (heq.trans hsymbol'))
  · intro j x s hx hs
    rcases getElem?_set_cases hx with ⟨-, rfl⟩ | ⟨-, hx⟩
    · exact hr.known (hbecomes.uses s hs)
    · exact hr.known (h.uses hx hs)
  · intro j x signature p e hx
    rcases getElem?_set_cases hx with ⟨-, rfl⟩ | ⟨-, hx⟩
    · exact hbecomes.offered
    · exact h.offered hx
  · intro j x hx
    rcases getElem?_set_cases hx with ⟨-, rfl⟩ | ⟨-, hx⟩
    · exact hlaid
    · exact h.laid_of_grows hx hr.graph hr.names hr.builders id
  · intro t d hd
    refine (h.plain hd).imp_right ?_
    rintro ⟨j, x, hx, hsymbol⟩
    obtain ⟨x', hx', hsymbol', -⟩ := hr.builders hx
    exact ⟨j, x', hx', hsymbol'.trans hsymbol⟩

theorem bound?_set_iff (hb : c.builders[i]? = some b) (hsymbol : b'.symbol = b.symbol)
    (hx : (c.builders.setIfInBounds i b')[j]? = some x) :
    ∃ y, c.builders[j]? = some y ∧ c.graph.bound? x.symbol = c.graph.bound? y.symbol := by
  rcases getElem?_set_cases hx with ⟨rfl, rfl⟩ | ⟨-, hx⟩
  · exact ⟨b, hb, congrArg _ hsymbol⟩
  · exact ⟨x, hx, rfl⟩

theorem Standing.set (h : c.Standing V roots) (hb : c.builders[i]? = some b)
    (hbecomes : Becomes V c b b') (houtline : b'.outline = b.outline) :
    (c.setBuilders (c.builders.setIfInBounds i b')).Standing V roots := by
  obtain ⟨hsymbol, -, htypes, hnested⟩ := TypeBuilder.of_outline_eq houtline
  have hsame := nestedOf_set hb hnested
  have hr := resolves_set (V := V) hb hsymbol hbecomes.container
  have hlaid := h.laid_of_grows hb hr.graph hr.names hr.builders id
  refine
    { toCoherent := h.toCoherent.set hb hbecomes (h.forest.congr hsame (by simp)) ⟨?_, ?_, ?_, ?_⟩
      nodup := h.nodup
      outermost := ?_, open_iff := ?_ }
  · rw [hnested]
    exact hlaid.names
  · rw [hnested, hsymbol]
    exact hlaid.nested
  · rw [hnested, hsymbol, htypes]
    exact hlaid.types
  · rw [hnested, hsymbol, hbecomes.container]
    exact hlaid.made
  · intro r hr
    simp only [builders_setBuilders, NestedIn, hsame, Array.size_setIfInBounds]
    exact h.outermost r hr
  · intro j x hx
    obtain ⟨y, hy, hbound⟩ := bound?_set_iff hb hsymbol hx
    simp only [builders_setBuilders, graph_setBuilders, within_congr hsame]
    rw [hbound]
    exact h.open_iff hy

theorem Laid.nest {name : String} {s : SymbolId} {child : TypeBuilder} {id : BuilderId}
    (h : c.Laid b) (hopen : c.graph.bound? b.symbol = none) (hadded : (b.addType ⟨name, s⟩).1)
    (hname : c.graph.nameOf s = name) (hid : c.builders[id.index]? = some child)
    (hsymbol : child.symbol = s) (hcontainer : child.container = some b.symbol) :
    c.Laid ((b.addType ⟨name, s⟩).2.addNested s id) := by
  obtain ⟨hfree, hadd⟩ := TypeBuilder.addType_of_added hadded
  rw [hadd, h.types hopen]
  rw [h.types hopen] at hfree
  have hnested : c.namesOf (b.nested ++ [(s, id)]) =
      ⟨(c.namesOf b.nested).live ++ [⟨name, s⟩], .empty⟩ := by simp [namesOf, hname]
  refine ⟨?_, ?_, fun _ => hnested.symm, fun ht => absurd (ht.symm.trans hopen) (by simp)⟩
  · show ((c.namesOf (b.nested ++ [(s, id)])).live.map TypeName.name).Nodup
    rw [hnested, List.map_append]
    refine h.names.append (List.nodup_singleton name) ?_
    rintro x hx hx'
    rw [List.map_singleton, List.mem_singleton] at hx'
    obtain ⟨entry, hentry, rfl⟩ := List.mem_map.mp hx
    exact lookup?_eq_none_iff.mp hfree entry hentry hx'
  · intro x hx
    rcases List.mem_append.mp hx with hx | hx
    · exact h.nested x hx
    · cases List.mem_singleton.mp hx
      exact ⟨child, hid, hsymbol, hcontainer⟩

theorem Standing.nest {k : BuilderId} (h : c.Standing V (k :: roots))
    (hb : c.builders[i]? = some b) (hopen : c.graph.bound? b.symbol = none) (hik : i < k.index)
    (hbecomes : Becomes V c b b') (hnested : b'.nested = b.nested ++ [(s, k)])
    (hlaid : (c.setBuilders (c.builders.setIfInBounds i b')).Laid b') :
    (c.setBuilders (c.builders.setIfInBounds i b')).Standing V roots := by
  obtain ⟨hk, hroot⟩ := h.outermost k List.mem_cons_self
  obtain ⟨hfresh, hnodup⟩ := List.nodup_cons.mp h.nodup
  have hnest := nestedIn_nest (nestedOf_nest hb hnested)
  obtain ⟨r, hmem, hir⟩ := (h.open_iff hb).mp hopen
  have hr : r ∈ roots := by
    rcases List.mem_cons.mp hmem with rfl | hr
    · exact absurd (h.forest.le_of_within hir) (Nat.not_le_of_lt hik)
    · exact hr
  refine
    { toCoherent := h.toCoherent.set hb hbecomes
        (h.forest.nest (by simp) hik hk hroot (nestedOf_nest hb hnested)) hlaid
      nodup := hnodup
      outermost := ?_, open_iff := ?_ }
  · intro q hq
    obtain ⟨hlt, hout⟩ := h.outermost q (List.mem_cons_of_mem _ hq)
    rw [builders_setBuilders, Array.size_setIfInBounds]
    refine ⟨hlt, fun j hn => ?_⟩
    rcases (hnest q j).mp hn with hn | ⟨rfl, -⟩
    · exact hout j hn
    · exact hfresh hq
  · intro j x hx
    obtain ⟨y, hy, hbound⟩ := bound?_set_iff hb hbecomes.symbol hx
    simp only [builders_setBuilders, graph_setBuilders, within_nest hnest]
    rw [hbound, h.open_iff hy]
    constructor
    · rintro ⟨q, hq, hw⟩
      rcases List.mem_cons.mp hq with rfl | hq
      · exact ⟨r, hr, .inr ⟨hw, hir⟩⟩
      · exact ⟨q, hq, .inl hw⟩
    · rintro ⟨q, hq, hw | ⟨hw, -⟩⟩
      · exact ⟨q, List.mem_cons_of_mem _ hq, hw⟩
      · exact ⟨k, List.mem_cons_self, hw⟩

end Context
end Binder
