import Binder.Proofs.Module.Finishing

/-! Declaring the types nested in a literal. Each of them gets a symbol and an open builder within the
builder around it; a literal whose nested types were all accepted is planned completely. -/
namespace Binder.Build

open Binder.Tree (Expr Mark)
open Context

variable {V : List SymbolId} {roots : List BuilderId} {c c' c'' : Context} {b : TypeBuilder}
  {id : BuilderId} {name : String}

/-- What declaring types does to a context. -/
structure Declares (V : List SymbolId) (roots : List BuilderId) (c c' : Context) : Prop where
  resolves : Resolves V c c'
  standing : c'.Standing V roots
  fallbacks : c'.fallbacks = c.fallbacks
  bound : ∀ s, c'.graph.bound? s = c.graph.bound? s
  free : ∀ {s}, c.Free V s → c'.Free V s

theorem Declares.trans (h : Declares V roots c c') (h' : Declares V roots c' c'') :
    Declares V roots c c'' where
  resolves := h.resolves.trans h'.resolves
  standing := h'.standing
  fallbacks := h'.fallbacks.trans h.fallbacks
  bound s := (h'.bound s).trans (h.bound s)
  free hs := h'.free (h.free hs)

theorem Declares.open (h : Declares V roots c c') (hb : c.builders[id.index]? = some b)
    (hopen : c.graph.bound? b.symbol = none) :
    ∃ b', c'.builders[id.index]? = some b' ∧ c'.graph.bound? b'.symbol = none := by
  obtain ⟨b', hb', hsymbol, -⟩ := h.resolves.builders hb
  exact ⟨b', hb', by rw [hsymbol, h.bound, hopen]⟩

theorem resolves_reported (d : Diagnostic) : Resolves V c (c.reported d) where
  backdrop := rfl
  graph := .refl _
  names := List.prefix_rfl
  values _ _ := rfl
  builders hb := ⟨_, hb, rfl, rfl⟩
  fallbacks := List.prefix_rfl
  diagnostics := List.prefix_append ..

theorem declares_reported (h : c.Standing V roots) (d : Diagnostic) :
    Declares V roots c (c.reported d) where
  resolves := resolves_reported d
  standing := h.keep (resolves_reported d) rfl rfl
  fallbacks := rfl
  bound _ := rfl
  free hs := ⟨hs.own, hs.unbound, hs.notMem, hs.unused⟩

theorem not_clean_of_reported {d : Diagnostic} (h : Resolves V (c.reported d) c') :
    c'.diagnostics ≠ [] := fun hclean => by simpa [reported] using h.clean hclean

theorem declares_newSymbol (h : c.Standing V roots) (name : String) :
    Declares V roots c (c.setGraph (c.graph.newSymbol name).2) where
  resolves := (h.newSymbol name).1
  standing := (h.newSymbol name).2.1
  fallbacks := rfl
  bound _ := TypeGraph.bound?_newSymbol name
  free hs := hs.newSymbol name

theorem setIfInBounds_eq_self {α : Type} {xs : Array α} {a : α} {i : Nat} (ha : xs[i]? = some a) :
    xs.setIfInBounds i a = xs := by
  apply Array.ext_getElem?
  intro j
  by_cases hj : i = j
  · subst hj
    rw [Array.getElem?_setIfInBounds_self_of_lt (Array.getElem?_eq_some_iff.mp ha).1, ha]
  · rw [Array.getElem?_setIfInBounds_ne hj]

theorem setIfInBounds_push_setIfInBounds (bs : Array TypeBuilder) (i : Nat)
    (b b' child : TypeBuilder) :
    ((bs.setIfInBounds i b).push child).setIfInBounds i b' =
      (bs.push child).setIfInBounds i b' := by
  apply Array.ext_getElem?
  intro j
  by_cases hj : i = j
  · subst hj
    rw [Array.getElem?_setIfInBounds_self, Array.getElem?_setIfInBounds_self]
    simp
  · rw [Array.getElem?_setIfInBounds_ne hj, Array.getElem?_setIfInBounds_ne hj,
      Array.getElem?_push, Array.getElem?_push, Array.size_setIfInBounds,
      Array.getElem?_setIfInBounds_ne hj]

/-- A builder that has got one more nested type. -/
def nesting (b : TypeBuilder) (entry : TypeName) (k : BuilderId) : TypeBuilder :=
  { b with
    typeScope := ⟨b.typeScope.live ++ [entry], b.typeScope.base⟩
    nested := b.nested ++ [(entry.symbol, k)] }

/-- The builder of a type that is nested in the one of another builder. -/
def inner (b : TypeBuilder) (id : BuilderId) (symbol : SymbolId) : TypeBuilder :=
  { symbol, container := some b.symbol, enclosing := id :: b.enclosing }

/-- The builder of a nested type was opened within another one, which has learnt its name. -/
def nest (c : Context) (id : BuilderId) (b : TypeBuilder) (name : String) : Context :=
  (c.setGraph (c.graph.newSymbol name).2).setBuilders
    ((c.builders.push (inner b id (c.graph.newSymbol name).1)).setIfInBounds id.index
      (nesting b ⟨name, (c.graph.newSymbol name).1⟩ ⟨c.builders.size⟩))

theorem nesting_eq {entry : TypeName} (hadded : (b.addType entry).1) (k : BuilderId) :
    (b.addType entry).2.addNested entry.symbol k = nesting b entry k := by
  rw [(TypeBuilder.addType_of_added hadded).2]
  rfl

theorem getElem?_nest (hb : c.builders[id.index]? = some b) (name : String) :
    (nest c id b name).builders[c.builders.size]? =
      some (inner b id (c.graph.newSymbol name).1) := by
  have hlt : id.index < c.builders.size := (Array.getElem?_eq_some_iff.mp hb).1
  rw [nest, builders_setBuilders, Array.getElem?_setIfInBounds_ne (Nat.ne_of_lt hlt),
    Array.getElem?_push_size]

theorem declares_nested (h : c.Standing V roots) (hb : c.builders[id.index]? = some b)
    (hopen : c.graph.bound? b.symbol = none)
    (hadded : (b.addType ⟨name, (c.graph.newSymbol name).1⟩).1) :
    Declares V roots c (nest c id b name) := by
  obtain ⟨hr, hstanding, hfree⟩ := h.newSymbol name
  have hlt : id.index < c.builders.size := (Array.getElem?_eq_some_iff.mp hb).1
  have hknown : c.Known V b.symbol := by
    obtain ⟨-, hV, hown, -⟩ := h.builder hb
    exact ⟨hV, .inr ⟨id.index, b, hb, rfl⟩, fun _ => ne_error_of_le hown⟩
  rw [nest, ← nesting_eq hadded]
  generalize hchild : inner b id (c.graph.newSymbol name).1 = child
  have hsymbol : child.symbol = (c.graph.newSymbol name).1 := by rw [← hchild, inner]
  have hpush := hstanding.push (hsymbol ▸ hfree) (by rw [← hchild, inner]) (by
    intro s hs
    rw [← hchild, inner, TypeBuilder.uses_opened, Option.mem_toList] at hs
    exact Option.some.inj hs ▸ hr.known hknown) (by rw [← hchild, inner]) (by rw [← hchild, inner])
    (by rw [← hchild, inner])
  have hb₁ : (c.builders.push child)[id.index]? = some b := getElem?_push_of_some hb child
  have hr' := hr.trans (resolves_push child)
  have hknown' : ((c.setGraph (c.graph.newSymbol name).2).setBuilders
      (c.builders.push child)).Known V (c.graph.newSymbol name).1 :=
    ⟨hfree.notMem, .inr ⟨c.builders.size, child, by simp, hsymbol⟩,
      fun _ => ne_error_of_le hfree.own⟩
  have hbecomes : Becomes V ((c.setGraph (c.graph.newSymbol name).2).setBuilders
      (c.builders.push child)) b ((b.addType ⟨name, (c.graph.newSymbol name).1⟩).2.addNested
        (c.graph.newSymbol name).1 ⟨c.builders.size⟩) := by
    refine ⟨rfl, rfl, rfl, ?_, fun hsignature => h.offered hb hsignature⟩
    intro s hs
    rw [TypeBuilder.uses_addNested] at hs
    rcases TypeBuilder.mem_uses_of_addType hs with rfl | hs
    · exact hknown'
    · exact hr'.known (h.uses hb hs)
  have hset := resolves_set (V := V) (c := (c.setGraph (c.graph.newSymbol name).2).setBuilders
    (c.builders.push child)) hb₁ hbecomes.symbol hbecomes.container
  refine ⟨hr'.trans hset, ?_, rfl, ?_, ?_⟩
  · refine hpush.nest hb₁ ((TypeGraph.bound?_newSymbol name).trans hopen) hlt hbecomes rfl ?_
    have hlaid := hpush.laid_of_grows hb₁ hset.graph hset.names hset.builders fun hnone => hnone
    refine hlaid.nest ((TypeGraph.bound?_newSymbol name).trans hopen) hadded ?_ ?_ hsymbol
      (by rw [← hchild, inner])
    · exact (TypeGraph.nameOf_newSymbol ..).trans (if_pos rfl)
    · rw [builders_setBuilders, Array.getElem?_setIfInBounds_ne (Nat.ne_of_lt hlt),
        builders_setBuilders, Array.getElem?_push_size]
  · intro s
    exact TypeGraph.bound?_newSymbol name
  · intro s hs
    have hne : child.symbol ≠ s := by
      rintro rfl
      have hlt := (TypeGraph.isUnbound_iff.mp hs.unbound).1
      rw [hsymbol] at hlt
      exact absurd hlt (Nat.lt_irrefl c.graph.symbols.size)
    refine ⟨hs.own, (hs.newSymbol name).unbound, hs.notMem, ?_⟩
    intro i x hx
    rcases getElem?_set_cases hx with ⟨-, rfl⟩ | ⟨-, hx⟩
    · rw [hbecomes.symbol]
      exact hs.unused hb
    · rcases getElem?_push_cases hx with ⟨-, rfl⟩ | ⟨-, hx⟩
      · exact hne
      · exact hs.unused hx

theorem declareNested_literal {Q : List Plan → Context → Prop} {note : Mark}
    {members rest : List (Tree.Member Mark)} (hb : c.builders[id.index]? = some b)
    (haccepted : (b.addType ⟨name, (c.graph.newSymbol name).1⟩).1 →
      Ends (do
        let inside ← declareNested ⟨c.builders.size⟩ members
        return .accepted (c.graph.newSymbol name).1 ⟨c.builders.size⟩ inside ::
          (← declareNested id rest)) (nest c id b name) Q)
    (hrefused : ¬ (b.addType ⟨name, (c.graph.newSymbol name).1⟩).1 →
      Ends (do return .refused :: (← declareNested id rest))
        ((c.setGraph (c.graph.newSymbol name).2).reported ⟨note.span, .duplicateSymbol⟩) Q) :
    Ends (declareNested id (.nested name (.typeLiteral note members) :: rest)) c Q := by
  rw [declareNested]
  refine Ends.bind (Ends.get (Ends.bind (Ends.withGraph (Ends.bind (Ends.withBuilder hb ?_)))))
  split
  next hadded =>
    have hlt : id.index < c.builders.size := (Array.getElem?_eq_some_iff.mp hb).1
    refine Ends.bind (Ends.newBuilder fun child hchild => Ends.bind ?_)
    have hb₁ : ((c.builders.setIfInBounds id.index
        (b.addType ⟨name, (c.graph.newSymbol name).1⟩).2).push child)[id.index]? =
        some (b.addType ⟨name, (c.graph.newSymbol name).1⟩).2 :=
      getElem?_push_of_some (getElem?_set_self hb _) child
    refine Ends.withBuilder hb₁ ?_
    have hinner : child = inner b id (c.graph.newSymbol name).1 := by
      rw [hchild, hb, (TypeBuilder.addType_of_added hadded).2]
      simp [around, inner, hlt]
    simp only [builders_setBuilders, builders_setGraph, Array.size_setIfInBounds,
      setBuilders_setBuilders, setIfInBounds_push_setIfInBounds, nesting_eq hadded, hinner]
    exact haccepted hadded
  next hadded =>
    rw [TypeBuilder.addType_of_taken hadded, builders_setGraph, setIfInBounds_eq_self hb]
    exact Ends.bind (Ends.report (hrefused hadded))

/-- The plan of a literal whose nested types were all accepted. -/
inductive Planned : List (Tree.Member Mark) → List Plan → Prop where
  | nil : Planned [] []
  | nested {name note inner inside rest plans symbol child} : Planned inner inside →
      Planned rest plans →
      Planned (.nested name (.typeLiteral note inner) :: rest) (.accepted symbol child inside :: plans)
  | field {name type mutable rest plans} : Planned rest plans →
      Planned (.field name type mutable :: rest) plans
  | signature {parameters result rest plans} : Planned rest plans →
      Planned (.signature parameters result :: rest) plans

theorem declareNested_ends (id : BuilderId) (members : List (Tree.Member Mark))
    (h : c.Standing V roots) (hb : c.builders[id.index]? = some b)
    (hopen : c.graph.bound? b.symbol = none) :
    Ends (declareNested id members) c fun plans c' =>
      Declares V roots c c' ∧ (c'.diagnostics = [] → Planned members plans) := by
  fun_induction declareNested id members generalizing c b with
  | case1 builder => exact Ends.pure ⟨⟨.refl V c, h, rfl, fun _ => rfl, id⟩, fun _ => .nil⟩
  | case2 id name note inner rest ihInner ihRest =>
    rw [← declareNested.eq_2]
    apply declareNested_literal hb
    · intro hadded
      have hopened := declares_nested h hb hopen hadded
      have hfresh := (TypeGraph.isUnbound_iff.mp (h.newSymbol name).2.2.unbound).2
      refine Ends.bind ((ihInner _ hopened.standing (getElem?_nest hb name) hfresh).mono ?_)
      rintro inside c₁ ⟨hinside, hplans⟩
      have hopened₁ := hopened.trans hinside
      obtain ⟨b₁, hb₁, hopen₁⟩ := hopened₁.open hb hopen
      refine Ends.bind ((ihRest hopened₁.standing hb₁ hopen₁).mono ?_)
      rintro plans c₂ ⟨hrest, hplans'⟩
      refine Ends.pure ⟨hopened₁.trans hrest, fun hclean => ?_⟩
      exact .nested (hplans (hrest.resolves.clean hclean)) (hplans' hclean)
    · intro hadded
      have hsymbol := declares_newSymbol h name
      have hreport := hsymbol.trans
        (declares_reported hsymbol.standing ⟨note.span, .duplicateSymbol⟩)
      obtain ⟨b₁, hb₁, hopen₁⟩ := hreport.open hb hopen
      refine Ends.bind ((ihRest hreport.standing hb₁ hopen₁).mono ?_)
      rintro plans c₁ ⟨hrest, -⟩
      refine Ends.pure ⟨hreport.trans hrest, fun hclean => ?_⟩
      exact absurd hclean (not_clean_of_reported hrest.resolves)
  | case3 id name value rest hvalue ih =>
    refine Ends.bind (Ends.report ?_)
    have hreport := declares_reported h ⟨value.span, .expectedTypeLiteral⟩
    refine (ih hreport.standing hb hopen).mono fun plans c' hrest => ?_
    refine ⟨hreport.trans hrest.1, fun hclean => ?_⟩
    exact absurd hclean (not_clean_of_reported hrest.1.resolves)
  | case4 id member rest hliteral hnested ih =>
    refine (ih h hb hopen).mono fun plans c' hrest => ⟨hrest.1, fun hclean => ?_⟩
    cases member with
    | field name type mutable => exact .field (hrest.2 hclean)
    | signature parameters result => exact .signature (hrest.2 hclean)
    | nested name value => exact absurd rfl (hnested name value)

end Binder.Build
