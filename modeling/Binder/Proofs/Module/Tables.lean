import Binder.Proofs.Module.Nesting
import Mathlib.Data.List.Forall2

/-! The tables of nested types. Each type literal has a table of the types that are nested in it, in
the order in which they are written. Declaring the nested types of a literal gives its builder the
names of its table, and no pass after that changes the names that a builder knows. -/
namespace Binder

open Binder.Tree (Expr Mark)

variable {inside : List Plan}

namespace Build

namespace Plan

/-- The builder of a nested type that was accepted. -/
def child? : Plan → Option BuilderId
  | .accepted _ child _ => some child
  | .refused => none

/-- The symbol of a nested type. One that was refused has none. -/
def symbol : Plan → SymbolId
  | .accepted symbol _ _ => symbol
  | .refused => Prelude.error

/-- The nested types of a literal under their names, in the order in which they are written. -/
def table : List (Tree.Member Mark) → List Plan → List TypeName
  | [], _ => []
  | .nested name (.typeLiteral _ _) :: rest, plans =>
      ⟨name, (plans.headD .refused).symbol⟩ :: table rest plans.tail
  | _ :: rest, plans => table rest plans

/-- What a name means in the literals around it, the innermost first: the nearest one that has a nested
type of that name decides, by the first of them. -/
def nearest? (literals : List (List (Tree.Member Mark) × List Plan)) (name : String) : Option SymbolId :=
  literals.findSome? fun l => (lookup? name (table l.1 l.2)).map TypeName.symbol

/-- The types nested in a literal have symbols: the first of each name a new one, which has that name, and
those after it none. -/
inductive Supplied (since : Nat) (names : List String) :
    List String → List (Tree.Member Mark) → List Plan → Prop
  | nil {taken : List String} : Supplied since names taken [] []
  | accepted {taken : List String} {name : String} {note : Mark} {inner rest : List (Tree.Member Mark)}
      {symbol : SymbolId} {child : BuilderId} {inside plans : List Plan} :
      name ∉ taken → since ≤ symbol.index → names[symbol.index]? = some name →
      Supplied since names [] inner inside → Supplied since names (taken ++ [name]) rest plans →
      Supplied since names taken (.nested name (.typeLiteral note inner) :: rest)
        (.accepted symbol child inside :: plans)
  | refused {taken : List String} {name : String} {note : Mark} {inner rest : List (Tree.Member Mark)}
      {plans : List Plan} : name ∈ taken → Supplied since names taken rest plans →
      Supplied since names taken (.nested name (.typeLiteral note inner) :: rest) (.refused :: plans)
  | other {taken : List String} {member : Tree.Member Mark} {rest : List (Tree.Member Mark)}
      {plans : List Plan} : (∀ name note inner, member ≠ .nested name (.typeLiteral note inner)) →
      Supplied since names taken rest plans → Supplied since names taken (member :: rest) plans

variable {members rest : List (Tree.Member Mark)} {plans : List Plan}

theorem Supplied.mono {since' since : Nat} {names names' taken : List String}
    (h : Supplied since names taken members plans) (hnames : names <+: names')
    (hsince : since' ≤ since) : Supplied since' names' taken members plans := by
  induction h with
  | nil => exact .nil
  | accepted htaken hnew hname _ _ ihInner ihRest =>
    refine .accepted htaken (hsince.trans hnew) ?_ ihInner ihRest
    obtain ⟨later, rfl⟩ := hnames
    rw [List.getElem?_append_left (List.getElem?_eq_some_iff.mp hname).1, hname]
  | refused htaken _ ih => exact .refused htaken ih
  | other hmember _ ih => exact .other hmember ih

theorem table_nested {name : String} {note : Mark} {inner : List (Tree.Member Mark)} {plan : Plan} :
    table (.nested name (.typeLiteral note inner) :: rest) (plan :: plans) =
      ⟨name, plan.symbol⟩ :: table rest plans := rfl

theorem table_other {member : Tree.Member Mark}
    (hmember : ∀ name note inner, member ≠ .nested name (.typeLiteral note inner)) :
    table (member :: rest) plans = table rest plans := by
  rw [table]
  exact hmember

end Plan

end Build

namespace Context

open Build (Plan)

variable {S S' : Nat → Prop} {c c' c'' : Context}

/-- No builder is nested in one that was opened after it. -/
def Later (c : Context) : Prop := ∀ {k i}, NestedIn c.builders k i → i.index < k.index

theorem Later.le_of_within {y r : BuilderId} (h : c.Later) (hw : Within c.builders y r) :
    r.index ≤ y.index := by
  induction hw with
  | refl => exact Nat.le_refl _
  | tail _ hn ih => exact Nat.le_trans (Nat.le_of_lt (h hn)) ih

/-- Of some of the builders the outlines are kept. -/
structure Outlines (S : Nat → Prop) (c c' : Context) : Prop where
  root : c'.root = c.root
  size : c.builders.size ≤ c'.builders.size
  builders : ∀ {i b}, S i → c.builders[i]? = some b →
    ∃ b', c'.builders[i]? = some b' ∧ b'.outline = b.outline
  later : c.Later → c'.Later

namespace Outlines

theorem refl (c : Context) : Outlines S c c :=
  ⟨rfl, Nat.le_refl _, fun _ hb => ⟨_, hb, rfl⟩, fun h => h⟩

theorem trans (h : Outlines S c c') (h' : Outlines S c' c'') : Outlines S c c'' where
  root := h'.root.trans h.root
  size := h.size.trans h'.size
  builders hi hb := by
    obtain ⟨b', hb', heq⟩ := h.builders hi hb
    obtain ⟨b'', hb'', heq'⟩ := h'.builders hi hb'
    exact ⟨b'', hb'', heq'.trans heq⟩
  later hl := h'.later (h.later hl)

theorem mono (h : Outlines S c c') (hS : ∀ i, S' i → S i) : Outlines S' c c' :=
  ⟨h.root, h.size, fun hi hb => h.builders (hS _ hi) hb, h.later⟩

theorem of_eq (hroot : c'.root = c.root) (hbuilders : c'.builders = c.builders) :
    Outlines S c c' where
  root := hroot
  size := by rw [hbuilders]
  builders _ hb := ⟨_, hbuilders ▸ hb, rfl⟩
  later hl := by
    unfold Later
    rw [hbuilders]
    exact hl

theorem of_lt (h : Outlines (· < c.builders.size) c c') : Outlines S c c' :=
  ⟨h.root, h.size, fun _ hb => h.builders (Array.getElem?_eq_some_iff.mp hb).1 hb, h.later⟩

theorem setGraph (g : TypeGraph) : Outlines S c (c.setGraph g) := .of_eq rfl rfl

theorem reported (d : Diagnostic) : Outlines S c (c.reported d) := .of_eq rfl rfl

end Outlines

/-- A builder knows the names of a table. -/
def Knows (b : TypeBuilder) (table : List TypeName) : Prop :=
  ∀ name, b.typeScope.find? name = lookup? name table

/-- The builders of the types nested in a literal. Each of them was opened after the builder `n`, lies
directly within `ids`, and knows its own table. -/
inductive Linked (n : Nat) (c : Context) :
    List BuilderId → List (Tree.Member Mark) → List Plan → Prop
  | nil {ids : List BuilderId} : Linked n c ids [] []
  | accepted {ids : List BuilderId} {name : String} {note : Mark} {inner rest : List (Tree.Member Mark)}
      {symbol : SymbolId} {child : BuilderId} {inside plans : List Plan} {b : TypeBuilder} :
      n < child.index → c.builders[child.index]? = some b → b.enclosing = ids →
      Knows b (Plan.table inner inside) → b.nested.map Prod.snd = inside.filterMap Plan.child? →
      Linked n c (child :: ids) inner inside → Linked n c ids rest plans →
      Linked n c ids (.nested name (.typeLiteral note inner) :: rest)
        (.accepted symbol child inside :: plans)
  | refused {ids : List BuilderId} {name : String} {note : Mark} {inner rest : List (Tree.Member Mark)}
      {plans : List Plan} : Linked n c ids rest plans →
      Linked n c ids (.nested name (.typeLiteral note inner) :: rest) (.refused :: plans)
  | other {ids : List BuilderId} {member : Tree.Member Mark} {rest : List (Tree.Member Mark)}
      {plans : List Plan} : (∀ name note inner, member ≠ .nested name (.typeLiteral note inner)) →
      Linked n c ids rest plans → Linked n c ids (member :: rest) plans

variable {n m : Nat} {ids : List BuilderId} {members rest : List (Tree.Member Mark)} {plans : List Plan}

namespace Linked

theorem mono (h : Linked n c ids members plans) (hm : m ≤ n) : Linked m c ids members plans := by
  induction h with
  | nil => exact .nil
  | accepted hn hb henclosing hknows hnested _ _ ihInner ihRest =>
    exact .accepted (by omega) hb henclosing hknows hnested ihInner ihRest
  | refused _ ih => exact .refused ih
  | other hmember _ ih => exact .other hmember ih

theorem outlines (h : Linked n c ids members plans) (ho : Outlines S c c') (hS : ∀ i, n < i → S i) :
    Linked n c' ids members plans := by
  induction h with
  | nil => exact .nil
  | accepted hn hb henclosing hknows hnested _ _ ihInner ihRest =>
    obtain ⟨b', hb', heq⟩ := ho.builders (hS _ hn) hb
    obtain ⟨-, henclosing', hscope, hnested'⟩ := TypeBuilder.of_outline_eq heq
    refine .accepted hn hb' (henclosing'.trans henclosing) ?_ (hnested' ▸ hnested) ihInner ihRest
    intro name
    rw [hscope, hknows name]
  | refused _ ih => exact .refused ih
  | other hmember _ ih => exact .other hmember ih

end Linked

end Context

namespace Build

open Context

variable {c c' : Context} {id : BuilderId} {b : TypeBuilder}

/-- What declaring the nested types of a literal does to the builder of the literal. -/
structure Tabled (id : BuilderId) (b : TypeBuilder) (c : Context) (members : List (Tree.Member Mark))
    (plans : List Plan) (c' : Context) : Prop where
  outlines : Outlines (· ≠ id.index) c c'
  builder : ∃ b', c'.builders[id.index]? = some b' ∧ b'.symbol = b.symbol ∧
    b'.enclosing = b.enclosing ∧ b'.typeScope.base = b.typeScope.base ∧
    (∀ name, lookup? name b'.typeScope.live =
      lookup? name (b.typeScope.live ++ Plan.table members plans)) ∧
    b'.nested.map Prod.snd = b.nested.map Prod.snd ++ plans.filterMap Plan.child?
  linked : Linked id.index c' (id :: b.enclosing) members plans
  names : c.graph.names <+: c'.graph.names
  supplied : Plan.Supplied c.graph.names.length c'.graph.names (b.typeScope.live.map TypeName.name)
    members plans

theorem lookup?_append_taken {α : Type} [Named α] {l l' : List α} {a : α}
    (h : lookup? (Named.name a) l ≠ none) (name : String) :
    lookup? name (l ++ a :: l') = lookup? name (l ++ l') := by
  unfold lookup? at h ⊢
  rw [List.find?_append, List.find?_append, List.find?_cons]
  by_cases hname : Named.name a = name
  · subst hname
    obtain ⟨x, hx⟩ := Option.ne_none_iff_exists'.mp h
    simp [hx]
  · simp [hname]

theorem outlines_nest (hb : c.builders[id.index]? = some b) (name : String) :
    Outlines (· ≠ id.index) c (nest c id b name) := by
  have hlt : id.index < c.builders.size := (Array.getElem?_eq_some_iff.mp hb).1
  refine ⟨rfl, by simp [nest], fun {i b₁} hi hb₁ => ⟨b₁, ?_, rfl⟩, fun hlater k i hk => ?_⟩
  · rw [nest, builders_setBuilders, Array.getElem?_setIfInBounds_ne (Ne.symm hi),
      getElem?_push_of_some hb₁]
  · have hnest := nestedOf_nest (getElem?_push_of_some hb (inner b id (c.graph.newSymbol name).1))
      (rfl : (nesting b ⟨name, (c.graph.newSymbol name).1⟩ ⟨c.builders.size⟩).nested = _)
    rcases (nestedIn_nest hnest k i).mp hk with hk | ⟨rfl, rfl⟩
    · rw [NestedIn, nestedOf_push c.builders rfl] at hk
      exact hlater hk
    · exact hlt

theorem Tabled.accepted {c₁ c₂ : Context} {b₁ : TypeBuilder} {symbol : SymbolId} {name : String}
    {note : Mark} {members rest : List (Tree.Member Mark)} {plans : List Plan}
    {k : BuilderId} (hid : id.index < c.builders.size)
    (hk : k.index = c.builders.size) (houtlines : Outlines (· ≠ id.index) c c')
    (hnew : c'.graph.names = c.graph.names ++ [name]) (hindex : symbol.index = c.graph.names.length)
    (hfree : name ∉ b.typeScope.live.map TypeName.name)
    (hb₁ : b₁.outline = (nesting b ⟨name, symbol⟩ k).outline)
    (hinner : Tabled k (inner b id symbol) c' members inside c₁) (hrest : Tabled id b₁ c₁ rest plans c₂) :
    Tabled id b c (.nested name (.typeLiteral note members) :: rest)
      (.accepted symbol k inside :: plans) c₂ := by
  have hlt : id.index < k.index := hk ▸ hid
  obtain ⟨hsymbol₁, henclosing₁, hscope₁, hnested₁⟩ := TypeBuilder.of_outline_eq hb₁
  obtain ⟨child₁, hchild₁, hchildSymbol, hchildEnclosing, hchildBase, hchildLive, hchildNested⟩ :=
    hinner.builder
  obtain ⟨child₂, hchild₂, heq⟩ := hrest.outlines.builders (Nat.ne_of_gt hlt) hchild₁
  obtain ⟨hsymbol₂, henclosing₂, hscope₂, hnested₂⟩ := TypeBuilder.of_outline_eq heq
  have hafter : ∀ i, k.index < i → i ≠ id.index := by omega
  have hnames : c.graph.names <+: c'.graph.names := hnew ▸ List.prefix_append ..
  have houtside : Outlines (fun i => i < c.builders.size ∧ i ≠ id.index) c c₂ :=
    ((houtlines.mono fun _ hi => hi.2).trans (hinner.outlines.mono fun i hi => by omega)).trans
      (hrest.outlines.mono fun _ hi => hi.2)
  refine ⟨⟨houtside.root, houtside.size, fun hi hb' => ?_, houtside.later⟩, ?_, ?_, ?_, ?_⟩
  · exact houtside.builders ⟨(Array.getElem?_eq_some_iff.mp hb').1, hi⟩ hb'
  · obtain ⟨b₂, hb₂, hsymbol, henclosing, hbase, hlive, hnested⟩ := hrest.builder
    refine ⟨b₂, hb₂, hsymbol.trans hsymbol₁, henclosing.trans henclosing₁, ?_, fun name' => ?_, ?_⟩
    · rw [hbase, hscope₁, nesting]
    · rw [hlive, hscope₁, Plan.table_nested, nesting, List.append_assoc, List.singleton_append,
        Plan.symbol]
    · rw [hnested, hnested₁, List.filterMap_cons]
      simp [Plan.child?, nesting]
  · refine .accepted hlt hchild₂ (henclosing₂.trans hchildEnclosing) ?_ ?_ ?_ ?_
    · intro name'
      rw [hscope₂, ScopeBuilder.find?, hchildLive, hchildBase]
      simp [inner, ScopeBuilder.empty, ScopeBuilder.withBase, Scope.find?]
    · rw [hnested₂, hchildNested]
      rfl
    · exact (hinner.linked.outlines hrest.outlines hafter).mono (Nat.le_of_lt hlt)
    · have hlinked := hrest.linked
      rwa [henclosing₁] at hlinked
  · exact hnames.trans (hinner.names.trans hrest.names)
  · have hname : c₂.graph.names[symbol.index]? = some name := by
      obtain ⟨later, hlater⟩ := hinner.names.trans hrest.names
      rw [← hlater, hnew, hindex]
      simp
    refine .accepted hfree hindex.ge hname ?_ ?_
    · exact hinner.supplied.mono hrest.names hnames.length_le
    · have hsupplied := hrest.supplied
      rw [hscope₁, nesting, List.map_append] at hsupplied
      exact hsupplied.mono List.prefix_rfl (hnames.trans hinner.names).length_le

theorem declareNested_tabled (id : BuilderId) (members : List (Tree.Member Mark))
    (hb : c.builders[id.index]? = some b) :
    Ends (declareNested id members) c fun plans c' => Tabled id b c members plans c' := by
  fun_induction declareNested id members generalizing c b with
  | case1 id =>
    exact Ends.pure ⟨.refl c, ⟨b, hb, rfl, rfl, rfl, by simp [Plan.table], by simp⟩, .nil,
      List.prefix_rfl, .nil⟩
  | case2 id name note inner rest ihInner ihRest =>
    rw [← declareNested.eq_2]
    apply declareNested_literal hb
    · intro hadd
      have hlt : id.index < c.builders.size := (Array.getElem?_eq_some_iff.mp hb).1
      refine Ends.bind (Ends.mono (ihInner _ (getElem?_nest hb name)) ?_)
      intro inside c₁ hinner
      have hb₁ : (nest c id b name).builders[id.index]? = some _ :=
        Array.getElem?_setIfInBounds_self_of_lt (by simp; omega)
      obtain ⟨b₂, hb₂, heq⟩ := hinner.outlines.builders (Nat.ne_of_lt hlt) hb₁
      refine Ends.bind (Ends.mono (ihRest hb₂) ?_)
      intro plans c₂ hrest
      have hfree : name ∉ b.typeScope.live.map TypeName.name := by
        simpa [lookup?, Named.name] using (TypeBuilder.addType_of_added hadd).1
      exact Ends.pure (.accepted hlt rfl (outlines_nest hb name) (TypeGraph.names_newSymbol name)
        (by simp [TypeGraph.newSymbol, TypeGraph.names]) hfree heq hinner hrest)
    · intro hadd
      refine Ends.bind (Ends.mono (ihRest (b := b) ?_) ?_)
      · exact hb
      intro plans c' h
      have htaken := TypeBuilder.taken_of_addType hadd
      have hnames : c.graph.names <+: (c.graph.newSymbol name).2.names := by simp
      refine Ends.pure ⟨((Outlines.setGraph _).trans (.reported _)).trans h.outlines, ?_,
        .refused h.linked, hnames.trans h.names, .refused ?_ ?_⟩
      rotate_left
      · simpa [lookup?, Named.name] using htaken
      · exact h.supplied.mono List.prefix_rfl hnames.length_le
      obtain ⟨b', hb', hsymbol, henclosing, hbase, hlive, hnested⟩ := h.builder
      refine ⟨b', hb', hsymbol, henclosing, hbase, fun name' => ?_, hnested⟩
      rw [hlive, Plan.table_nested]
      exact (lookup?_append_taken (a := (⟨name, Plan.refused.symbol⟩ : TypeName)) htaken name').symm
  | case3 id name value rest hvalue ih =>
    refine Ends.bind (Ends.report ?_)
    refine Ends.mono (ih (b := b) ?_) fun plans c' h => ?_
    · exact hb
    have hother : ∀ name' note inner, (Tree.Member.nested name value : Tree.Member Mark) ≠
        .nested name' (.typeLiteral note inner) := by
      rintro name' note inner heq
      cases heq
      exact hvalue note inner rfl
    refine ⟨(Outlines.reported _).trans h.outlines, ?_, .other hother h.linked, h.names,
      .other hother h.supplied⟩
    rw [Plan.table_other hother]
    exact h.builder
  | case4 id member rest hliteral hnested ih =>
    refine (ih hb).mono fun plans c' h => ?_
    have hother : ∀ name note inner, member ≠ .nested name (.typeLiteral note inner) :=
      fun name note inner => hnested name _
    refine ⟨h.outlines, ?_, .other hother h.linked, h.names, .other hother h.supplied⟩
    rw [Plan.table_other hother]
    exact h.builder

end Build

namespace Build

open Context

variable {c c' c'' : Context} {id : BuilderId} {scope : Option BuilderId} {members : List (Tree.Member Mark)}
  {plans : List Plan} {symbol : SymbolId} {container : Option SymbolId} {ids : List BuilderId}

/-- A literal has got its builder, which knows the table of the literal, and so have the literals
nested in it. -/
structure Literal (id : BuilderId) (ids : List BuilderId) (members : List (Tree.Member Mark))
    (plans : List Plan) (c : Context) : Prop where
  builder : ∃ b, c.builders[id.index]? = some b ∧ b.enclosing = ids ∧
    Knows b (Plan.table members plans) ∧ b.nested.map Prod.snd = plans.filterMap Plan.child?
  linked : Linked 0 c (id :: ids) members plans

theorem Literal.outlines (h : Literal id ids members plans c)
    (ho : Outlines (fun _ => True) c c') : Literal id ids members plans c' where
  builder := by
    obtain ⟨b, hb, henclosing, hknows, hnested⟩ := h.builder
    obtain ⟨b', hb', heq⟩ := ho.builders trivial hb
    obtain ⟨-, henclosing', hscope, hnested'⟩ := TypeBuilder.of_outline_eq heq
    refine ⟨b', hb', henclosing'.trans henclosing, fun name => ?_, hnested' ▸ hnested⟩
    rw [hscope, hknows]
  linked := h.linked.outlines ho fun _ _ => trivial

theorem Literal.around_eq (h : Literal id ids members plans c) :
    c.around (some id) = id :: ids := by
  obtain ⟨b, hb, henclosing, -⟩ := h.builder
  rw [around, hb, Option.map_some, Option.getD_some, henclosing]

theorem openLiteral_ends (members : List (Tree.Member Mark)) (hopen : newBuilder symbol container scope c = .ok id c') :
    id = ⟨c.builders.size⟩ ∧ Ends (declareNested id members) c' fun plans c'' =>
      Outlines (· ≠ id.index) c' c'' ∧ Literal id (c.around scope) members plans c'' := by
  cases hopen
  obtain ⟨b, hb⟩ : ∃ b : TypeBuilder, b = { symbol, container, enclosing := c.around scope } := ⟨_, rfl⟩
  rw [← hb]
  refine ⟨rfl, (declareNested_tabled (b := b) ⟨c.builders.size⟩ members (by simp)).mono ?_⟩
  intro plans c'' htabled
  refine ⟨htabled.outlines, ?_, ?_⟩
  · obtain ⟨b', hb', -, henclosing, hbase, hlive, hnested⟩ := htabled.builder
    refine ⟨b', hb', by rw [henclosing, hb], fun name => ?_, by rw [hnested, hb]; simp⟩
    rw [ScopeBuilder.find?, hlive, hbase, hb]
    simp [ScopeBuilder.empty, ScopeBuilder.withBase, Scope.find?]
  · have hlinked := htabled.linked
    rw [hb] at hlinked
    exact hlinked.mono (Nat.zero_le _)

end Build

namespace Context

open Build (Plan)

variable {S : Nat → Prop} {c c' : Context} {scope : Option BuilderId} {b b' : TypeBuilder} {i : Nat}
  {literals : List (List (Tree.Member Mark) × List Plan)}

/-- The literals around a place have got the builders around it. -/
def Sees (c : Context) (literals : List (List (Tree.Member Mark) × List Plan)) (ids : List BuilderId) :
    Prop :=
  List.Forall₂ (fun l id => ∃ ids, Build.Literal id ids l.1 l.2 c) literals ids

theorem findEnclosed?_eq (h : c.Sees literals (c.around scope)) (name : String) :
    c.findEnclosed? scope name = Plan.nearest? literals name := by
  unfold findEnclosed? Plan.nearest?
  generalize c.around scope = ids at h
  induction h with
  | nil => rfl
  | @cons l id literals ids hl _ ih =>
    obtain ⟨_, ⟨b, hb, -, hknows, -⟩, -⟩ := hl
    simp only [List.findSome?_cons, hb, Option.bind_some, TypeBuilder.findType?, hknows name]
    cases lookup? name (Plan.table l.1 l.2) with
    | some entry => rfl
    | none => exact ih

theorem Sees.outlines {ids : List BuilderId} (h : c.Sees literals ids)
    (ho : Outlines (fun _ => True) c c') : c'.Sees literals ids :=
  List.Forall₂.imp (fun _ _ hl => hl.imp fun _ hl => hl.outlines ho) h

/-- A type expression stands within some literals, which have got the builders around it. -/
structure Placed (c : Context) (literals : List (List (Tree.Member Mark) × List Plan))
    (scope : Option BuilderId) : Prop where
  later : c.Later
  root : c.root.isSome
  sees : c.Sees literals (c.around scope)

theorem Placed.outlines (h : c.Placed literals scope) (ho : Outlines (fun _ => True) c c') :
    c'.Placed literals scope where
  later := ho.later h.later
  root := ho.root ▸ h.root
  sees := by
    have hsees := h.sees.outlines ho
    cases scope with
    | none => exact hsees
    | some id =>
      have hhere := h.sees
      cases hhere with
      | cons hl _ =>
        obtain ⟨_, hl⟩ := hl
        rwa [(hl.outlines ho).around_eq, ← hl.around_eq]

theorem outlines_set (hb : c.builders[i]? = some b) (hnested : b'.nested = b.nested) :
    Outlines (· ≠ i) c (c.setBuilders (c.builders.setIfInBounds i b')) where
  root := rfl
  size := by simp
  builders {j b₁} hj hb₁ := by
    refine ⟨b₁, ?_, rfl⟩
    rw [builders_setBuilders, Array.getElem?_setIfInBounds_ne (Ne.symm hj), hb₁]
  later hlater k j hk := by
    rw [builders_setBuilders, NestedIn, nestedOf_set hb hnested] at hk
    exact hlater hk

theorem outlines_fill (hb : c.builders[i]? = some b) (houtline : b'.outline = b.outline) :
    Outlines S c (c.setBuilders (c.builders.setIfInBounds i b')) := by
  have hset := outlines_set hb (TypeBuilder.of_outline_eq houtline).2.2.2
  refine ⟨hset.root, hset.size, fun {j b₁} _ hb₁ => ?_, hset.later⟩
  by_cases hj : j = i
  · subst hj
    cases hb.symm.trans hb₁
    exact ⟨b', getElem?_set_self hb b', houtline⟩
  · exact hset.builders hj hb₁

theorem outlines_push (hnested : b.nested = []) :
    Outlines S c (c.setBuilders (c.builders.push b)) where
  root := rfl
  size := by simp
  builders _ hb₁ := ⟨_, getElem?_push_of_some hb₁ b, rfl⟩
  later hlater k j hk := by
    rw [builders_setBuilders, NestedIn, nestedOf_push c.builders hnested] at hk
    exact hlater hk

end Context

end Binder
