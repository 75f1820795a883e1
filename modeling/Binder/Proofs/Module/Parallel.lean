import Binder.Proofs.Module.Reporting
import Binder.Proofs.TypeGraph.Pairing

/-! Two contexts that are the same but for the numbers of symbols, types and builders. From some point
on both have made the same steps, so that what is new in one corresponds to what is new in the other,
place by place; what is older and matters is the same in both. Steps that correspond keep that up. -/
namespace Binder

open Binder.Tree (Expr Mark)

variable {x : SymbolId} {g g' : TypeGraph}

/-- Numbers of two contexts that correspond: `old` ones are the same in both, and those from `here` on
correspond, in their order, to those from `there` on. -/
structure Offset where
  old : Nat → Prop
  here : Nat
  there : Nat

namespace Offset

variable {o : Offset} {i j i' j' n m : Nat}

/-- As many new numbers have been given out in one context as in the other. -/
def Level (o : Offset) (n m : Nat) : Prop := o.here ≤ n ∧ o.there ≤ m ∧ n + o.there = m + o.here

def Rel (o : Offset) (i j : Nat) : Prop :=
  (o.old i ∧ i < o.here ∧ i < o.there ∧ j = i) ∨ o.Level i j

theorem Level.succ (h : o.Level n m) : o.Level (n + 1) (m + 1) := by
  unfold Level at *
  omega

theorem Level.rel (h : o.Level n m) : o.Rel n m := .inr h

theorem Rel.eq_iff (h : o.Rel i j) (h' : o.Rel i' j') : i = i' ↔ j = j' := by
  unfold Rel Level at *
  omega

theorem Rel.lt_iff (h : o.Rel i j) (h' : o.Level n m) : i < n ↔ j < m := by
  unfold Rel Level at *
  omega

theorem Rel.lt (h : o.Rel i j) (h' : o.Rel i' j') (hlt : i < i') : j < j' := by
  unfold Rel Level at *
  omega

/-- Arrays with related entries at numbers that correspond. -/
structure Along {α : Type} (o : Offset) (R : α → α → Prop) (xs ys : Array α) : Prop where
  level : o.Level xs.size ys.size
  entry : ∀ {i j}, o.Rel i j → Option.Rel R xs[i]? ys[j]?

variable {α : Type} {R : α → α → Prop} {xs ys : Array α} {a b : α}

theorem Along.push (h : o.Along R xs ys) (hab : R a b) : o.Along R (xs.push a) (ys.push b) where
  level := by simpa using h.level.succ
  entry := by
    intro i j hij
    simp only [Array.getElem?_push, hij.eq_iff h.level.rel]
    split
    · exact .some hab
    · exact h.entry hij

theorem Along.set (h : o.Along R xs ys) (hij : o.Rel i j) (hab : R a b) :
    o.Along R (xs.setIfInBounds i a) (ys.setIfInBounds j b) where
  level := by simpa using h.level
  entry := by
    intro i' j' hij'
    simp only [Array.getElem?_setIfInBounds, hij.eq_iff hij', hij.lt_iff h.level]
    split
    · split
      · exact .some hab
      · exact .none
    · exact h.entry hij'

end Offset

section Scopes

variable {α : Type} [Named α] {R : α → α → Prop} {l l' : List α} {a a' : α}

theorem firsts_rel (hname : ∀ {a a'}, R a a' → Named.name a' = Named.name a)
    (h : List.Forall₂ R l l') : List.Forall₂ R (firsts l) (firsts l') := by
  induction h with
  | nil => exact .nil
  | cons ha _ ih =>
    refine .cons ha (List.rel_filter ?_ ih)
    intro b b' hb
    simp [hname ha, hname hb]

theorem arrange_rel (hname : ∀ {a a'}, R a a' → Named.name a' = Named.name a)
    (h : List.Forall₂ R l l') : List.Forall₂ R (Scope.arrange l) (Scope.arrange l') := by
  apply firsts_rel hname
  obtain ⟨hlength, hzip⟩ := List.forall₂_iff_zip.mp h
  have hfst := List.map_fst_zip (Nat.le_of_eq hlength)
  have hsnd := List.map_snd_zip (Nat.le_of_eq hlength.symm)
  generalize l.zip l' = pairs at hzip hfst hsnd
  subst hfst hsnd
  -- both lists are sorted as the list of their pairs is
  let le : α × α → α × α → Bool := fun p q => decide (Named.name p.1 ≤ Named.name q.1)
  rw [← List.map_mergeSort (f := Prod.fst) (r := le) fun _ _ _ _ => rfl]
  rw [← List.map_mergeSort (f := Prod.snd) (r := le)
    fun p hp q hq => by rw [hname (hzip hp), hname (hzip hq)]]
  rw [List.forall₂_map_left_iff, List.forall₂_map_right_iff, List.forall₂_same]
  intro p hp
  exact hzip (List.mem_mergeSort.mp hp)

/-- Scopes under construction with corresponding entries and nothing behind them. -/
structure Growing (R : α → α → Prop) (s s' : ScopeBuilder α) : Prop where
  live : List.Forall₂ R s.live s'.live
  base : s.base = .empty ∧ s'.base = .empty

namespace Growing

variable {s s' : ScopeBuilder α}

theorem find? (hname : ∀ {a a'}, R a a' → Named.name a' = Named.name a) (h : Growing R s s')
    (name : String) : Option.Rel R (s.find? name) (s'.find? name) := by
  have hlookup := lookup?_rel hname name h.live
  simp only [ScopeBuilder.find?, h.base.1, h.base.2]
  generalize lookup? name s.live = x at hlookup
  generalize lookup? name s'.live = x' at hlookup
  cases hlookup with
  | some ha => exact .some ha
  | none => exact .none

theorem enter (hname : ∀ {a a'}, R a a' → Named.name a' = Named.name a) (h : Growing R s s')
    (ha : R a a') : (s.enter a).1.2 = (s'.enter a').1.2 ∧ Growing R (s.enter a).2 (s'.enter a').2 := by
  have hlookup := lookup?_rel hname (Named.name a) h.live
  simp only [ScopeBuilder.enter, hname ha]
  generalize lookup? (Named.name a) s.live = x at hlookup
  generalize lookup? (Named.name a) s'.live = x' at hlookup
  cases hlookup with
  | some => exact ⟨rfl, h⟩
  | none => exact ⟨rfl, List.rel_append h.live (.cons ha .nil), h.base⟩

theorem freeze (hname : ∀ {a a'}, R a a' → Named.name a' = Named.name a) (h : Growing R s s') :
    Pairing.Scopes R s.freeze.1 s'.freeze.1 ∧ Growing R s.freeze.2 s'.freeze.2 := by
  refine ⟨?_, .nil, h.base⟩
  have hempty : s.live.isEmpty = s'.live.isEmpty := by
    rw [Bool.eq_iff_iff, List.isEmpty_iff_length_eq_zero, List.isEmpty_iff_length_eq_zero,
      h.live.length_eq]
  simp only [ScopeBuilder.freeze, h.base.1, h.base.2, Scope.ofList, hempty]
  split
  · exact .empty
  · exact .table (arrange_rel hname h.live)

end Growing
end Scopes

/-- What corresponds in two contexts. The values of one are `values`, those of the other `values'`, and
no symbol of a value corresponds to anything; of the fallbacks only those after `fallbacks` do. -/
structure Shift where
  symbols : Offset
  types : Offset
  builders : Offset
  values : List SymbolId
  values' : List SymbolId
  fallbacks : List (Expr × SymbolId)
  fallbacks' : List (Expr × SymbolId)
  apart : ∀ {i j}, symbols.Rel i j → ⟨i⟩ ∉ values ∧ ⟨j⟩ ∉ values'
  error : symbols.Rel Prelude.error.index Prelude.error.index

namespace Shift

variable (σ : Shift)

def pairing : Pairing where
  symbol x y := σ.symbols.Rel x.index y.index
  type t u := σ.types.Rel t.index u.index

def builder (b b' : BuilderId) : Prop := σ.builders.Rel b.index b'.index

theorem symbol_eq_iff {y x' y' : SymbolId} (h : σ.pairing.symbol x y) (h' : σ.pairing.symbol x' y') :
    x = x' ↔ y = y' := by
  cases x
  cases x'
  cases y
  cases y'
  simpa using Offset.Rel.eq_iff h h'

/-- Types correspond to types; of values only matters that they are none. -/
inductive Declarations : Declaration → Declaration → Prop
  | type {n n' : TypeName} : σ.pairing.Names n n' → Declarations (.type n) (.type n')
  | value (m m' : Member) : Declarations (.value m) (.value m')

structure Fallbacks (f f' : Expr × SymbolId) : Prop where
  expression : f'.1.erase = f.1.erase
  symbol : σ.pairing.symbol f.2 f'.2

structure Builders (b b' : TypeBuilder) : Prop where
  symbol : σ.pairing.symbol b.symbol b'.symbol
  kind : b.kind = .record ∧ b'.kind = .record
  container : Option.Rel σ.pairing.symbol b.container b'.container
  enclosing : List.Forall₂ σ.builder b.enclosing b'.enclosing
  members : List.Forall₂ σ.pairing.Members b.members b'.members
  memberScope : Growing σ.pairing.Members b.memberScope b'.memberScope
  typeScope : Growing σ.pairing.Names b.typeScope b'.typeScope
  signatures : List.Forall₂ σ.pairing.Signatures b.signatures b'.signatures
  nested : List.Forall₂ (fun n n' => σ.builder n.2 n'.2) b.nested b'.nested

namespace Builders

variable {σ} {b b' : TypeBuilder}

theorem opened {symbol symbol' : SymbolId} {container container' : Option SymbolId}
    {enclosing enclosing' : List BuilderId} (hsymbol : σ.pairing.symbol symbol symbol')
    (hcontainer : Option.Rel σ.pairing.symbol container container')
    (henclosing : List.Forall₂ σ.builder enclosing enclosing') :
    σ.Builders { symbol := symbol, container := container, enclosing := enclosing }
      { symbol := symbol', container := container', enclosing := enclosing' } where
  symbol := hsymbol
  kind := ⟨rfl, rfl⟩
  container := hcontainer
  enclosing := henclosing
  members := .nil
  memberScope := ⟨.nil, rfl, rfl⟩
  typeScope := ⟨.nil, rfl, rfl⟩
  signatures := .nil
  nested := .nil

variable (h : σ.Builders b b')
include h

theorem addMember {m m' : Member} (hm : σ.pairing.Members m m') :
    (b.addMember m).1 = (b'.addMember m').1 ∧ σ.Builders (b.addMember m).2 (b'.addMember m').2 := by
  obtain ⟨hinserted, hscope⟩ := h.memberScope.enter Pairing.Members.name hm
  simp only [TypeBuilder.addMember]
  rw [hinserted]
  split
  · exact ⟨rfl, { h with members := List.rel_append h.members (.cons hm .nil), memberScope := hscope }⟩
  · exact ⟨rfl, h⟩

theorem addType {n n' : TypeName} (hn : σ.pairing.Names n n') :
    (b.addType n).1 = (b'.addType n').1 ∧ σ.Builders (b.addType n).2 (b'.addType n').2 := by
  obtain ⟨hinserted, hscope⟩ := h.typeScope.enter Pairing.Names.name hn
  exact ⟨hinserted, { h with typeScope := hscope }⟩

theorem addSignature {s s' : Signature} (hs : σ.pairing.Signatures s s') :
    σ.Builders (b.addSignature s) (b'.addSignature s') :=
  { h with signatures := List.rel_append h.signatures (.cons hs .nil) }

theorem addNested (s s' : SymbolId) {child child' : BuilderId}
    (hchild : σ.builder child child') : σ.Builders (b.addNested s child) (b'.addNested s' child') :=
  { h with nested := List.rel_append h.nested (.cons hchild .nil) }

theorem made : σ.pairing.Defs b.made b'.made where
  symbol := h.symbol
  kind := by
    rw [TypeBuilder.made, TypeBuilder.made, h.kind.1, h.kind.2]
    exact .record
  members := h.members
  memberScope := (h.memberScope.freeze Pairing.Members.name).1
  typeScope := (h.typeScope.freeze Pairing.Names.name).1
  signatures := h.signatures
  container := h.container
  plain hpart := by
    rw [TypeBuilder.made, h.kind.1] at hpart
    cases hpart

theorem emptied : σ.Builders b.emptied b'.emptied :=
  { h with
    members := .nil
    memberScope := (h.memberScope.freeze Pairing.Members.name).2
    typeScope := (h.typeScope.freeze Pairing.Names.name).2
    signatures := .nil }

theorem findType? (name : String) :
    Option.Rel σ.pairing.symbol (b.findType? name) (b'.findType? name) :=
  rel_map (h.typeScope.find? Pairing.Names.name name) Pairing.Names.symbol

end Builders

/-- Graphs in which what corresponds has the same name and corresponding types. -/
structure Graphs (g g' : TypeGraph) : Prop where
  level : σ.symbols.Level g.symbols.size g'.symbols.size
  names : ∀ {x y}, σ.pairing.symbol x y → g'.nameOf y = g.nameOf x
  bound : ∀ {x y}, σ.pairing.symbol x y → Option.Rel σ.pairing.type (g.bound? x) (g'.bound? y)
  types : σ.types.Along σ.pairing.Defs g.types g'.types
  own : ∀ {x y t}, σ.pairing.symbol x y → g.bound? x = some t →
    ∃ d, g.def? t = some d ∧ d.symbol = x
  /-- arrays and references have no names -/
  anonymous : ∀ {t u d}, σ.pairing.type t u → g.def? t = some d → d.kind.part?.isSome →
    g.HasSymbol d.symbol ∧ g.nameOf d.symbol = ""

end Shift

theorem TypeGraph.nameOf_newType (g : TypeGraph) (d : TypeDef) (s : SymbolId) :
    (g.newType d).2.nameOf s = g.nameOf s := by
  rw [nameOf_eq, nameOf_eq, names_newType]

namespace Shift.Graphs

variable {σ : Shift} {g g' : TypeGraph} {x y : SymbolId} {t u : TypeId}

variable (h : σ.Graphs g g')
include h

theorem def? (ht : σ.pairing.type t u) :
    Option.Rel σ.pairing.Defs (g.def? t) (g'.def? u) := h.types.entry ht

theorem typeOf? (hx : σ.pairing.symbol x y) :
    Option.Rel σ.pairing.Defs (g.typeOf? x) (g'.typeOf? y) := rel_bind (h.bound hx) h.def?

theorem isBound (hx : σ.pairing.symbol x y) : g'.isBound y = g.isBound x :=
  rel_isSome (h.bound hx)

theorem isUnbound (hx : σ.pairing.symbol x y) : g'.isUnbound y = g.isUnbound x := by
  rw [Bool.eq_iff_iff, TypeGraph.isUnbound_iff, TypeGraph.isUnbound_iff,
    ← TypeGraph.isBound_eq_false_iff, ← TypeGraph.isBound_eq_false_iff, h.isBound hx]
  exact and_congr_left fun _ => (Offset.Rel.lt_iff hx h.level).symm

theorem isError (hx : σ.pairing.symbol x y) : g'.isError y = g.isError x := by
  have htype := h.typeOf? hx
  simp only [TypeGraph.isError]
  generalize g.typeOf? x = d at htype
  generalize g'.typeOf? y = d' at htype
  cases htype with
  | none => rfl
  | @some d d' hd =>
    have hkind := hd.kind
    simp only [Option.map_some, Option.getD_some, TypeDef.isError]
    generalize d.kind = k at hkind
    generalize d'.kind = k' at hkind
    cases hkind <;> rfl

theorem newSymbol (name : String) : σ.Graphs (g.newSymbol name).2 (g'.newSymbol name).2 where
  level := by simpa using h.level.succ
  names := by
    intro x y hx
    simp only [TypeGraph.nameOf_newSymbol, Offset.Rel.eq_iff hx h.level.rel, h.names hx]
  bound := by
    intro x y hx
    simp only [TypeGraph.bound?_newSymbol]
    exact h.bound hx
  types := h.types
  own hx ht := h.own hx (by rwa [TypeGraph.bound?_newSymbol] at ht)
  anonymous := by
    intro t u d ht hd hpart
    obtain ⟨hsymbol, hname⟩ := h.anonymous ht hd hpart
    refine ⟨(TypeGraph.grows_newSymbol name).hasSymbol hsymbol, ?_⟩
    rw [TypeGraph.nameOf_newSymbol, if_neg (Nat.ne_of_lt hsymbol), hname]

theorem newType {d d' : TypeDef} (hd : σ.pairing.Defs d d')
    (hname : d.kind.part?.isSome → g.HasSymbol d.symbol ∧ g.nameOf d.symbol = "") :
    σ.Graphs (g.newType d).2 (g'.newType d').2 where
  level := by simpa using h.level
  names := by
    intro x y hx
    simp only [TypeGraph.nameOf_newType, h.names hx]
  bound := by
    intro x y hx
    simp only [TypeGraph.bound?_newType, σ.symbol_eq_iff hx hd.symbol, h.isUnbound hd.symbol]
    split
    · exact .some h.types.level.rel
    · exact h.bound hx
  types := by
    rw [TypeGraph.types_newType, TypeGraph.types_newType]
    exact h.types.push hd
  own := by
    intro x y t hx ht
    rw [TypeGraph.bound?_newType] at ht
    split at ht
    next hnew =>
      cases ht
      exact ⟨d, by rw [TypeGraph.def?_newType, if_pos rfl], hnew.1.symm⟩
    next =>
      obtain ⟨d₁, hd₁, hsymbol⟩ := h.own hx ht
      exact ⟨d₁, (TypeGraph.grows_newType d).defs hd₁, hsymbol⟩
  anonymous := by
    intro t u d₁ ht hd₁ hpart
    have hold : ∀ {s}, g.HasSymbol s ∧ g.nameOf s = "" →
        (g.newType d).2.HasSymbol s ∧ (g.newType d).2.nameOf s = "" := fun hs =>
      ⟨(TypeGraph.grows_newType d).hasSymbol hs.1, by rw [TypeGraph.nameOf_newType, hs.2]⟩
    rw [TypeGraph.def?_newType] at hd₁
    split at hd₁
    · cases hd₁
      exact hold (hname hpart)
    · exact hold (h.anonymous ht hd₁ hpart)

theorem own' (hxy : σ.pairing.symbol x y) (hu : g'.bound? y = some u) :
    ∃ d', g'.def? u = some d' ∧ d'.symbol = y := by
  rcases rel_cases (h.bound hxy) with ⟨-, hnone⟩ | ⟨t, u', ht, hu', htu⟩
  · cases hu.symm.trans hnone
  · cases hu.symm.trans hu'
    obtain ⟨d, hd, rfl⟩ := h.own hxy ht
    rcases rel_cases (h.def? htu) with ⟨hnone, -⟩ | ⟨d₁, d', hd₁, hd', hdefs⟩
    · cases hd.symm.trans hnone
    · cases hd.symm.trans hd₁
      exact ⟨d', hd', (σ.symbol_eq_iff hdefs.symbol hxy).mp rfl⟩

end Shift.Graphs

/-- Two contexts that are the same but for what the shift says. -/
structure Context.Parallel (σ : Shift) (c c' : Context) : Prop where
  graph : σ.Graphs c.graph c'.graph
  builders : σ.builders.Along σ.Builders c.builders c'.builders
  nesting : ∀ {i : Nat} {b : TypeBuilder} {n}, c.builders[i]? = some b → n ∈ b.nested →
    i < n.2.index ∧ n.2.index < c.builders.size
  builderOf : ∀ {x y}, σ.pairing.symbol x y → c.graph.typeOf? x = none →
    Option.Rel σ.builder (c.builderOf? x) (c'.builderOf? y)
  scope : ∀ name, Option.Rel σ.Declarations (c.find? name) (c'.find? name)
  fallbacks : ∃ new new', c.fallbacks = σ.fallbacks ++ new ∧ c'.fallbacks = σ.fallbacks' ++ new' ∧
    List.Forall₂ σ.Fallbacks new new'
  quiet : c.inference.Quiet σ.values ∧ c'.inference.Quiet σ.values'
  folded : c.foldingFaults = [] ∧ c'.foldingFaults = []
  clean : c.diagnostics = [] ↔ c'.diagnostics = []

theorem TypeGraph.Grows.typeOf?_eq_none (h : g.Grows g') (hx : g'.typeOf? x = none) :
    g.typeOf? x = none := by
  cases hb : g.bound? x with
  | none => simp [TypeGraph.typeOf?, hb]
  | some t =>
    cases hd : g.def? t with
    | none => simp [TypeGraph.typeOf?, hb, hd]
    | some d =>
      rw [TypeGraph.typeOf?, h.bound hb] at hx
      cases (h.defs hd).symm.trans hx

namespace Context.Parallel

variable {σ : Shift} {c c' : Context} {scope scope' : Option BuilderId}

variable (h : Parallel σ c c')
include h

theorem setGraph (hg : σ.Graphs g g')
    (hgrows : c.graph.Grows g) : Parallel σ (c.setGraph g) (c'.setGraph g') where
  graph := hg
  builders := h.builders
  nesting := h.nesting
  builderOf hx hnone := h.builderOf hx (hgrows.typeOf?_eq_none hnone)
  scope := h.scope
  fallbacks := h.fallbacks
  quiet := ⟨⟨h.quiet.1.members, h.quiet.1.blocked, h.quiet.1.settled⟩,
    ⟨h.quiet.2.members, h.quiet.2.blocked, h.quiet.2.settled⟩⟩
  folded := h.folded
  clean := h.clean

theorem setBuilders {bs bs' : Array TypeBuilder} (hbuilders : σ.builders.Along σ.Builders bs bs')
    (hnesting : ∀ {i : Nat} {b : TypeBuilder} {n}, bs[i]? = some b → n ∈ b.nested →
      i < n.2.index ∧ n.2.index < bs.size)
    (hbuilderOf : ∀ {x y}, σ.pairing.symbol x y → c.graph.typeOf? x = none →
      Option.Rel σ.builder ((c.setBuilders bs).builderOf? x) ((c'.setBuilders bs').builderOf? y)) :
    Parallel σ (c.setBuilders bs) (c'.setBuilders bs') where
  graph := h.graph
  builders := hbuilders
  nesting := hnesting
  builderOf := hbuilderOf
  scope := h.scope
  fallbacks := h.fallbacks
  quiet := h.quiet
  folded := h.folded
  clean := h.clean

theorem reported (d d' : Diagnostic) : Parallel σ (c.reported d) (c'.reported d') :=
  { h with
    nesting := h.nesting
    builderOf := h.builderOf
    clean := by simp [Context.reported] }

theorem pledge {f f' : Expr × SymbolId} (hf : σ.Fallbacks f f') :
    Parallel σ { c with fallbacks := c.fallbacks ++ [f] } { c' with fallbacks := c'.fallbacks ++ [f'] } := by
  obtain ⟨new, new', hnew, hnew', hrel⟩ := h.fallbacks
  refine { h with nesting := h.nesting, builderOf := h.builderOf, fallbacks := ?_ }
  refine ⟨new ++ [f], new' ++ [f'], ?_, ?_, List.rel_append hrel (.cons hf .nil)⟩
  · simp [hnew]
  · simp [hnew']

theorem around (hscope : Option.Rel σ.builder scope scope') :
    List.Forall₂ σ.builder (c.around scope) (c'.around scope') := by
  cases hscope with
  | none => exact .nil
  | @some id id' hid =>
    refine .cons hid ?_
    have hbuilder := h.builders.entry hid
    generalize c.builders[id.index]? = b at hbuilder
    generalize c'.builders[id'.index]? = b' at hbuilder
    cases hbuilder with
    | none => exact .nil
    | some hb => exact hb.enclosing

theorem findType? {id id' : BuilderId} (hid : σ.builder id id') (name : String) :
    Option.Rel σ.pairing.symbol ((c.builders[id.index]?).bind fun b => b.findType? name)
      ((c'.builders[id'.index]?).bind fun b => b.findType? name) :=
  rel_bind (h.builders.entry hid) fun hb => hb.findType? name

theorem findEnclosed? (hscope : Option.Rel σ.builder scope scope') (name : String) :
    Option.Rel σ.pairing.symbol (c.findEnclosed? scope name) (c'.findEnclosed? scope' name) := by
  have haround := h.around hscope
  simp only [Context.findEnclosed?]
  generalize c.around scope = ids at haround
  generalize c'.around scope' = ids' at haround
  induction haround with
  | nil => exact .none
  | @cons id id' ids ids' hid _ ih =>
    have hfind := h.findType? hid name
    simp only [List.findSome?_cons]
    generalize ((c.builders[id.index]?).bind fun b => b.findType? name) = x at hfind
    generalize ((c'.builders[id'.index]?).bind fun b => b.findType? name) = x' at hfind
    cases hfind with
    | some hx => exact .some hx
    | none => exact ih

theorem findNested? {target target' : SymbolId}
    (htarget : σ.pairing.symbol target target') (name : String) :
    Option.Rel σ.pairing.symbol (c.findNested? target name) (c'.findNested? target' name) := by
  have htype := h.graph.typeOf? htarget
  have hbuilder := h.builderOf htarget
  simp only [Context.findNested?]
  generalize c.graph.typeOf? target = d at htype hbuilder
  generalize c'.graph.typeOf? target' = d' at htype
  cases htype with
  | some hd => exact rel_map (hd.typeScope.find? Pairing.Names.name name) Pairing.Names.symbol
  | none => exact rel_bind (hbuilder rfl) fun hid => h.findType? hid name

end Context.Parallel
end Binder
