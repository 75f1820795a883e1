import Binder.Proofs.Inference.Overload
import Mathlib.Data.List.Forall2

/-! Two graphs with the same types under other numbers. A pairing tells which symbols and which types
of the graphs stand for each other. Types are like if they are paired, or if they are arrays or
references of like types; none of these arrays has a size. Likeness decides which types are the same
within each graph, and so calls with arguments of like types get signatures that are paired. -/
namespace Binder

variable {p : Pairing} {α β : Type} {d d' : TypeDef} {s s' : Signature} {D : Prop}

/-- Which symbols and types of one graph stand for which of another. -/
structure Pairing where
  symbol : SymbolId → SymbolId → Prop
  type : TypeId → TypeId → Prop

namespace Pairing

variable (p : Pairing)

inductive Kinds : TypeKind → TypeKind → Prop
  | record : Kinds .record .record
  | array {e e' : SymbolId} : p.symbol e e' → Kinds (.array e none) (.array e' none)
  | reference {e e' : SymbolId} : p.symbol e e' → Kinds (.reference e) (.reference e')
  | module : Kinds .module .module
  | error : Kinds .error .error

structure Members (m m' : Member) : Prop where
  name : m'.name = m.name
  kind : m'.kind = m.kind
  type : p.symbol m.type m'.type

structure Names (n n' : TypeName) : Prop where
  name : n'.name = n.name
  symbol : p.symbol n.symbol n'.symbol

/-- Of a fallback only matters whether there is one. -/
structure Parameters (q q' : Parameter) : Prop where
  name : q'.name = q.name
  type : p.symbol q.type q'.type
  fallback : q'.fallback.isSome = q.fallback.isSome

structure Signatures (s s' : Signature) : Prop where
  parameters : List.Forall₂ p.Parameters s.parameters s'.parameters
  result : p.symbol s.result s'.result

/-- Scopes of one table at most, with corresponding entries. -/
inductive Scopes {α : Type} (R : α → α → Prop) : Scope α → Scope α → Prop
  | empty : Scopes R .empty .empty
  | table {l l' : List α} : List.Forall₂ R l l' → Scopes R (.table l) (.table l')

structure Defs (d d' : TypeDef) : Prop where
  symbol : p.symbol d.symbol d'.symbol
  kind : p.Kinds d.kind d'.kind
  members : List.Forall₂ p.Members d.members d'.members
  memberScope : Scopes p.Members d.memberScope d'.memberScope
  typeScope : Scopes p.Names d.typeScope d'.typeScope
  signatures : List.Forall₂ p.Signatures d.signatures d'.signatures
  container : Option.Rel p.symbol d.container d'.container
  /-- arrays and references have neither members nor signatures -/
  plain : d.kind.part?.isSome → d.memberScope = .empty ∧ d.signatures = []

end Pairing

section Options

variable {α β γ δ : Type} {R : α → β → Prop} {S : γ → δ → Prop} {x : Option α} {y : Option β}

theorem rel_bind {f : α → Option γ} {g : β → Option δ} (h : Option.Rel R x y)
    (hf : ∀ {a b}, R a b → Option.Rel S (f a) (g b)) : Option.Rel S (x.bind f) (y.bind g) := by
  cases h with
  | some ha => exact hf ha
  | none => exact .none

theorem rel_map {f : α → γ} {g : β → δ} (h : Option.Rel R x y) (hf : ∀ {a b}, R a b → S (f a) (g b)) :
    Option.Rel S (x.map f) (y.map g) := by
  cases h with
  | some ha => exact .some (hf ha)
  | none => exact .none

theorem rel_cases (h : Option.Rel R x y) :
    (x = none ∧ y = none) ∨ ∃ a b, x = some a ∧ y = some b ∧ R a b := by
  cases h with
  | some ha => exact .inr ⟨_, _, rfl, rfl, ha⟩
  | none => exact .inl ⟨rfl, rfl⟩

theorem rel_isSome (h : Option.Rel R x y) : y.isSome = x.isSome := by cases h <;> rfl

end Options

theorem lookup?_rel [Named α] {R : α → α → Prop}
    (hname : ∀ {a a'}, R a a' → Named.name a' = Named.name a) (name : String) {l l' : List α}
    (h : List.Forall₂ R l l') : Option.Rel R (lookup? name l) (lookup? name l') := by
  induction h with
  | nil => exact .none
  | @cons a a' l l' ha _ ih =>
    unfold lookup? at ih ⊢
    rw [List.find?_cons, List.find?_cons, hname ha]
    split
    · exact .some ha
    · exact ih

theorem Pairing.Scopes.find? [Named α] {R : α → α → Prop}
    (hname : ∀ {a a'}, R a a' → Named.name a' = Named.name a) {s s' : Scope α}
    (h : Scopes R s s') (name : String) : Option.Rel R (s.find? name) (s'.find? name) := by
  cases h with
  | empty => exact .none
  | table hl => exact lookup?_rel hname name hl

theorem Pairing.Defs.findMember? (h : p.Defs d d') (name : String) :
    Option.Rel p.Members (d.findMember? name) (d'.findMember? name) :=
  h.memberScope.find? Pairing.Members.name name

theorem forall₂_imp_of_mem {R S : α → β → Prop} {l : List α} {l' : List β}
    (h : List.Forall₂ R l l') (hS : ∀ a ∈ l, ∀ b, R a b → S a b) : List.Forall₂ S l l' := by
  have hmem : ∀ a ∈ l, a ∈ l := fun _ ha => ha
  exact ((List.forall₂_and_left _ _).mpr ⟨hmem, h⟩).imp fun a b hab => hS a hab.1 b hab.2

namespace Pairing

variable {p q : Pairing}

theorem Signatures.imp (h : p.Signatures s s')
    (hsymbol : ∀ {x y}, x ∈ s.uses → p.symbol x y → q.symbol x y) : q.Signatures s s' where
  parameters := forall₂_imp_of_mem h.parameters fun _ ha _ hab =>
    ⟨hab.name, hsymbol (List.mem_cons_of_mem _ (List.mem_map_of_mem ha)) hab.type, hab.fallback⟩
  result := hsymbol List.mem_cons_self h.result

theorem Scopes.imp {R S : α → α → Prop} {s s' : Scope α} (h : Scopes R s s')
    (hS : ∀ {b} a, a ∈ s.tables.flatten → R a b → S a b) : Scopes S s s' := by
  cases h with
  | empty => exact .empty
  | table hl =>
    exact .table (forall₂_imp_of_mem hl fun a ha _ hab => hS a (by simpa [Scope.tables] using ha) hab)

theorem Defs.imp (h : p.Defs d d')
    (hown : ∀ {y}, p.symbol d.symbol y → q.symbol d.symbol y)
    (hsymbol : ∀ {x y}, x ∈ d.uses → p.symbol x y → q.symbol x y) : q.Defs d d' where
  symbol := hown h.symbol
  kind := by
    have hkind := h.kind
    have hpart : ∀ {e}, d.kind.part? = some e → e ∈ d.uses := TypeDef.part_mem_uses
    generalize d.kind = kind at hkind hpart
    generalize d'.kind = kind' at hkind
    cases hkind with
    | record => exact .record
    | array he => exact .array (hsymbol (hpart rfl) he)
    | reference he => exact .reference (hsymbol (hpart rfl) he)
    | module => exact .module
    | error => exact .error
  members := forall₂_imp_of_mem h.members fun m hm _ hmm' =>
    ⟨hmm'.name, hmm'.kind, hsymbol (TypeDef.listed_mem_uses hm) hmm'.type⟩
  memberScope := h.memberScope.imp fun _ hm hmm' =>
    ⟨hmm'.name, hmm'.kind, hsymbol (TypeDef.entry_mem_uses hm) hmm'.type⟩
  typeScope := h.typeScope.imp fun _ hm hmm' =>
    ⟨hmm'.name, hsymbol (TypeDef.name_mem_uses hm) hmm'.symbol⟩
  signatures := forall₂_imp_of_mem h.signatures fun s hs _ hss' =>
    hss'.imp fun hx => hsymbol (TypeDef.signature_mem_uses hs hx)
  container := by
    have hcontainer := h.container
    have hused : ∀ {x}, d.container = some x → x ∈ d.uses := TypeDef.container_mem_uses
    generalize d.container = x at hcontainer hused
    generalize d'.container = x' at hcontainer
    cases hcontainer with
    | none => exact .none
    | some hx => exact .some (hsymbol (hused rfl) hx)
  plain := h.plain

end Pairing

namespace TypeGraph

variable {T U W : TypeId → TypeId → Prop} {g g' h h' k : TypeGraph} {t t' u u' v : TypeId}
  {a b a' b' : SymbolId} {p : Pairing} {V : List SymbolId} {rank : SymbolId → Nat}

/-- Types of two graphs that are alike: ones that go together, or arrays or references of like types. -/
inductive Like (T : TypeId → TypeId → Prop) (g h : TypeGraph) : TypeId → TypeId → Prop
  | plain {t u : TypeId} {k k' : TypeKind} : T t u → g.kind? t = some k → h.kind? u = some k' →
      k.part? = none → k'.part? = none → Like T g h t u
  | array {t u v w : TypeId} {e e' : SymbolId} : g.kind? t = some (.array e none) →
      h.kind? u = some (.array e' none) → g.bound? e = some v → h.bound? e' = some w →
      Like T g h v w → Like T g h t u
  | reference {t u v w : TypeId} {e e' : SymbolId} : g.kind? t = some (.reference e) →
      h.kind? u = some (.reference e') → g.bound? e = some v → h.bound? e' = some w →
      Like T g h v w → Like T g h t u

namespace Like

theorem symm (hl : Like T g h t u) : Like (fun a b => T b a) h g u t := by
  induction hl with
  | plain ht hk hk' hn hn' => exact .plain ht hk' hk hn' hn
  | array hk hk' hb hb' _ ih => exact .array hk' hk hb' hb ih
  | reference hk hk' hb hb' _ ih => exact .reference hk' hk hb' hb ih

theorem imp (hl : Like T g h t u) (hT : ∀ {t u}, T t u → U t u) : Like U g h t u := by
  induction hl with
  | plain ht hk hk' hn hn' => exact .plain (hT ht) hk hk' hn hn'
  | array hk hk' hb hb' _ ih => exact .array hk hk' hb hb' ih
  | reference hk hk' hb hb' _ ih => exact .reference hk hk' hb hb' ih

theorem trans (hl : Like T g h t u) (hl' : Like U h k u v)
    (hW : ∀ {t u v}, T t u → U u v → W t v) : Like W g k t v := by
  induction hl generalizing v with
  | plain ht hk hk' hn hn' =>
    cases hl' with
    | plain hu hk₁ hk₁' _ hn₁ => exact .plain (hW ht hu) hk hk₁' hn hn₁
    | array hk₁ =>
      cases hk'.symm.trans hk₁
      cases hn'
    | reference hk₁ =>
      cases hk'.symm.trans hk₁
      cases hn'
  | array hk hk' hb hb' _ ih =>
    cases hl' with
    | plain _ hk₁ _ hn =>
      cases hk'.symm.trans hk₁
      cases hn
    | array hk₁ hk₁' hb₁ hb₁' hrest =>
      cases hk'.symm.trans hk₁
      cases hb'.symm.trans hb₁
      exact .array hk hk₁' hb hb₁' (ih hrest)
    | reference hk₁ => cases hk'.symm.trans hk₁
  | reference hk hk' hb hb' _ ih =>
    cases hl' with
    | plain _ hk₁ _ hn =>
      cases hk'.symm.trans hk₁
      cases hn
    | array hk₁ => cases hk'.symm.trans hk₁
    | reference hk₁ hk₁' hb₁ hb₁' hrest =>
      cases hk'.symm.trans hk₁
      cases hb'.symm.trans hb₁
      exact .reference hk hk₁' hb hb₁' (ih hrest)

theorem grows (hl : Like T g h t u) (hg : g.Grows g') (hh : h.Grows h') : Like T g' h' t u := by
  induction hl with
  | plain ht hk hk' hn hn' => exact .plain ht (hg.kind? hk) (hh.kind? hk') hn hn'
  | array hk hk' hb hb' _ ih =>
    exact .array (hg.kind? hk) (hh.kind? hk') (hg.bound hb) (hh.bound hb') ih
  | reference hk hk' hb hb' _ ih =>
    exact .reference (hg.kind? hk) (hh.kind? hk') (hg.bound hb) (hh.bound hb') ih

/-- Like types of one graph are the same. -/
theorem same (hl : Like Eq g g t u) (ha : g.bound? a = some t) (hb : g.bound? b = some u) :
    g.Same a b := by
  induction hl generalizing a b with
  | plain heq => exact .type ha (heq ▸ hb)
  | array hk hk' he he' _ ih => exact .array ha hb hk hk' rfl (ih he he')
  | reference hk hk' he he' _ ih => exact .reference ha hb hk hk' (ih he he')

end Like

/-- No array has a size. -/
def Sizeless (g : TypeGraph) : Prop := ∀ {t e n}, g.kind? t = some (.array e n) → n = none

/-- The part of every type is bound. -/
def Founded (g : TypeGraph) : Prop := ∀ {t e}, g.part? t = some e → ∃ v, g.bound? e = some v

/-- Arrays and references have neither members nor signatures. -/
def Plain (g : TypeGraph) : Prop :=
  ∀ {t d}, g.def? t = some d → d.kind.part?.isSome → d.memberScope = .empty ∧ d.signatures = []

/-- Types are like if they can be compared level by level: in a ranked graph that comes to an end. -/
theorem like_of_step {R : TypeId → TypeId → Prop} (hr : h.Ranked rank)
    (hstep : ∀ {t u}, R t u →
      (∃ k k', T t u ∧ g.kind? t = some k ∧ h.kind? u = some k' ∧ k.part? = none ∧ k'.part? = none) ∨
      (∃ e e' v w, g.kind? t = some (.array e none) ∧ h.kind? u = some (.array e' none) ∧
        g.bound? e = some v ∧ h.bound? e' = some w ∧ R v w) ∨
      ∃ e e' v w, g.kind? t = some (.reference e) ∧ h.kind? u = some (.reference e') ∧
        g.bound? e = some v ∧ h.bound? e' = some w ∧ R v w)
    (hb : h.bound? b = some u) (ht : R t u) : Like T g h t u := by
  induction hn : rank b using Nat.strong_induction_on generalizing b t u with
  | _ n ih =>
    subst hn
    rcases hstep ht with ⟨k, k', hT, hk, hk', hnone, hnone'⟩ |
      ⟨e, e', v, w, hk, hk', he, he', hR⟩ | ⟨e, e', v, w, hk, hk', he, he', hR⟩
    · exact .plain hT hk hk' hnone hnone'
    · exact .array hk hk' he he' (ih _ (hr hb (part?_array hk')) he' hR rfl)
    · exact .reference hk hk' he he' (ih _ (hr hb (part?_reference hk')) he' hR rfl)

theorem like_refl (hr : g.Ranked rank) (hf : g.Founded) (hs : g.Sizeless)
    (htypes : ∀ {s t}, g.bound? s = some t → g.HasType t) (hb : g.bound? b = some t) :
    Like Eq g g t t := by
  apply like_of_step (R := fun t u => t = u ∧ g.HasType t) hr ?_ hb ⟨rfl, htypes hb⟩
  rintro t _ ⟨rfl, ht⟩
  obtain ⟨d, hd⟩ := ht.exists_def?
  have hk : g.kind? t = some d.kind := by simp [kind?, hd]
  cases hkind : d.kind with
  | array e n =>
    rw [hkind] at hk
    cases hs hk
    obtain ⟨v, hv⟩ := hf (part?_array hk)
    exact .inr (.inl ⟨e, e, v, v, hk, hk, hv, hv, rfl, htypes hv⟩)
  | reference e =>
    rw [hkind] at hk
    obtain ⟨v, hv⟩ := hf (part?_reference hk)
    exact .inr (.inr ⟨e, e, v, v, hk, hk, hv, hv, rfl, htypes hv⟩)
  | record | module | error =>
    rw [hkind] at hk
    exact .inl ⟨_, _, rfl, hk, hk, rfl, rfl⟩

theorem Alike.upToSize {sizes : Option Nat → Option Nat → Prop} (hsame : Alike sizes g a b) :
    g.SameUpToSize a b := by
  induction hsame with
  | refl a => exact .refl a
  | type ha hb => exact .type ha hb
  | array ha hb hk hk' _ _ ih => exact .array ha hb hk hk' trivial ih
  | reference ha hb hk hk' _ ih => exact .reference ha hb hk hk' ih

/-- Types that are the same but for sizes are like where there are none. -/
theorem Alike.like (hs : g.Sizeless) (hf : g.Founded)
    (hrefl : ∀ {s t}, g.bound? s = some t → Like Eq g g t t) (hsame : g.SameUpToSize a b)
    (ha : g.bound? a = some t) (hb : g.bound? b = some u) : Like Eq g g t u := by
  induction hsame generalizing t u with
  | refl =>
    cases ha.symm.trans hb
    exact hrefl ha
  | type ha' hb' =>
    cases ha.symm.trans ha'
    cases hb.symm.trans hb'
    exact hrefl ha
  | array ha' hb' hk hk' _ _ ih =>
    cases ha.symm.trans ha'
    cases hb.symm.trans hb'
    cases hs hk
    cases hs hk'
    obtain ⟨v, hv⟩ := hf (part?_array hk)
    obtain ⟨w, hw⟩ := hf (part?_array hk')
    exact .array hk hk' hv hw (ih hv hw)
  | reference ha' hb' hk hk' _ ih =>
    cases ha.symm.trans ha'
    cases hb.symm.trans hb'
    obtain ⟨v, hv⟩ := hf (part?_reference hk)
    obtain ⟨w, hw⟩ := hf (part?_reference hk')
    exact .reference hk hk' hv hw (ih hv hw)

/-- Two graphs hold what a pairing says. Of the second one, `V` are the symbols of values; types and
symbols that it is still to get are of no concern. -/
structure Paired (p : Pairing) (V : List SymbolId) (g h : TypeGraph) : Prop where
  types : ∀ {t u}, p.type t u → h.HasType u →
    ∃ d d', g.def? t = some d ∧ h.def? u = some d' ∧ p.Defs d d'
  symbols : ∀ {x y u}, p.symbol x y → y ∉ V → h.bound? y = some u →
    ∃ t, g.bound? x = some t ∧ p.type t u
  left : ∀ {t u u'}, p.type t u → p.type t u' → u = u'
  right : ∀ {t t' u}, p.type t u → p.type t' u → t = t'

namespace Paired

variable {p : Pairing} {V V' : List SymbolId} {D D' : Prop}

theorem like (hp : Paired p V g h) (hh : h.Settled V D) (hb : h.bound? b = some u)
    (ht : p.type t u) : Like p.type g h t u := by
  apply like_of_step (R := fun t u => p.type t u ∧ h.HasType u) hh.ranked ?_ hb ⟨ht, hh.types hb⟩
  rintro t u ⟨ht, hu⟩
  obtain ⟨d, d', hd, hd', hdefs⟩ := hp.types ht hu
  have hk : g.kind? t = some d.kind := by simp [kind?, hd]
  have hk' : h.kind? u = some d'.kind := by simp [kind?, hd']
  have hparts : ∀ {e e'}, p.symbol e e' → h.part? u = some e' →
      ∃ v w, g.bound? e = some v ∧ h.bound? e' = some w ∧ p.type v w ∧ h.HasType w := by
    intro e e' he hpart
    obtain ⟨hbound, hV⟩ := hh.part hpart
    obtain ⟨w, hw⟩ := isBound_iff.mp hbound
    obtain ⟨v, hv, hvw⟩ := hp.symbols he hV hw
    exact ⟨v, w, hv, hw, hvw, hh.types hw⟩
  have hkinds := hdefs.kind
  generalize d.kind = kind at hk hkinds
  generalize d'.kind = kind' at hk' hkinds
  cases hkinds with
  | array he =>
    obtain ⟨v, w, hv, hw, hvw⟩ := hparts he (part?_array hk')
    exact .inr (.inl ⟨_, _, v, w, hk, hk', hv, hw, hvw⟩)
  | reference he =>
    obtain ⟨v, w, hv, hw, hvw⟩ := hparts he (part?_reference hk')
    exact .inr (.inr ⟨_, _, v, w, hk, hk', hv, hw, hvw⟩)
  | record | module | error => exact .inl ⟨_, _, ht, hk, hk', rfl, rfl⟩

theorem congr (hp : Paired p V g h) (hdefs : ∀ t, h'.def? t = h.def? t)
    (hbound : ∀ y ∉ V, h'.bound? y = h.bound? y) : Paired p V g h' where
  types := by
    intro t u htu hu
    obtain ⟨d', hd'⟩ := hu.exists_def?
    rw [hdefs] at hd' ⊢
    exact hp.types htu (.of_def? hd')
  symbols := by
    intro x y u hxy hV hu
    rw [hbound y hV] at hu
    exact hp.symbols hxy hV hu
  left := hp.left
  right := hp.right

theorem restrict (hp : Paired p V g h) (hh : h'.Grows h) : Paired p V g h' where
  types := by
    intro t u htu hu
    obtain ⟨d₁, hd₁⟩ := hu.exists_def?
    obtain ⟨d, d', hd, hd', hdefs⟩ := hp.types htu (hh.hasType hu)
    cases (hh.defs hd₁).symm.trans hd'
    exact ⟨d, d₁, hd, hd₁, hdefs⟩
  symbols hxy hy hu := hp.symbols hxy hy (hh.bound hu)
  left := hp.left
  right := hp.right

/-- The same types of one graph are like the same types of the other. -/
theorem like_iff (hp : Paired p V g h) (ht : Like p.type g h t t') (hu : Like p.type g h u u') :
    Like Eq g g t u ↔ Like Eq h h t' u' := by
  constructor
  · intro hsame
    have hleft : Like p.type g h t u' := hsame.trans hu fun heq hT => heq ▸ hT
    exact ht.symm.trans hleft fun hT hT' => hp.left hT hT'
  · intro hsame
    have hright : Like p.type g h t u' := ht.trans hsame fun hT heq => heq ▸ hT
    exact hright.trans hu.symm fun hT hT' => hp.right hT hT'

end Paired

/-- What comparing types takes: all arrays are without sizes, and types are like themselves. -/
structure Comparable (g : TypeGraph) : Prop where
  ranked : ∃ rank, g.Ranked rank
  founded : g.Founded
  sizeless : g.Sizeless
  plain : g.Plain
  types : ∀ {s t}, g.bound? s = some t → g.HasType t
  own : ∀ {t d}, g.def? t = some d → g.bound? d.symbol = some t

namespace Comparable

variable {V : List SymbolId} {D : Prop}

theorem of_settled (hg : g.Settled V D) (hs : g.Sizeless) (hp : g.Plain) : g.Comparable where
  ranked := ⟨_, hg.ranked⟩
  founded hp := isBound_iff.mp (hg.part hp).1
  sizeless := hs
  plain := hp
  types := hg.types
  own hd := (hg.own hd).1

theorem refl (hg : g.Comparable) (hb : g.bound? b = some t) : Like Eq g g t t := by
  obtain ⟨rank, hr⟩ := hg.ranked
  exact like_refl hr hg.founded hg.sizeless hg.types hb

theorem like_of_sameUpToSize (hg : g.Comparable) (hsame : g.SameUpToSize a b)
    (ha : g.bound? a = some t) (hb : g.bound? b = some u) : Like Eq g g t u :=
  hsame.like hg.sizeless hg.founded hg.refl ha hb

theorem sameType_iff (hg : g.Comparable) (ha : g.bound? a = some t) (hb : g.bound? b = some u) :
    g.sameType a b = true ↔ Like Eq g g t u := by
  obtain ⟨rank, hr⟩ := hg.ranked
  rw [TypeGraph.sameType_iff hr]
  constructor
  · intro hsame
    exact hg.like_of_sameUpToSize (hsame.upToSize) ha hb
  · intro hl
    exact hl.same ha hb

theorem bound?_symbolOf (hg : g.Comparable) (ht : g.HasType t) : g.bound? (g.symbolOf t) = some t := by
  obtain ⟨d, hd⟩ := ht.exists_def?
  rw [symbolOf_eq hd]
  exact hg.own hd

end Comparable

theorem Like.hasType (hl : Like T g h t u) : g.HasType t ∧ h.HasType u := by
  have hkind : ∀ {g : TypeGraph} {t k}, g.kind? t = some k → g.HasType t := by
    intro g t k hk
    obtain ⟨d, hd, -⟩ := Option.map_eq_some_iff.mp hk
    exact .of_def? hd
  cases hl with
  | plain _ hk hk' => exact ⟨hkind hk, hkind hk'⟩
  | array hk hk' => exact ⟨hkind hk, hkind hk'⟩
  | reference hk hk' => exact ⟨hkind hk, hkind hk'⟩

theorem Paired.sameType_eq (hp : Paired p V g h)
    (hg : g.Comparable) (hh : h.Settled V D) (hc : h.Comparable) {x y : SymbolId}
    (hxy : p.symbol x y) (hy : h.isBound y) (hV : y ∉ V) (hl : Like p.type g h t u) :
    h.sameType y (h.symbolOf u) = g.sameType x (g.symbolOf t) := by
  obtain ⟨w, hw⟩ := isBound_iff.mp hy
  obtain ⟨v, hv, hvw⟩ := hp.symbols hxy hV hw
  obtain ⟨ht, hu⟩ := hl.hasType
  rw [Bool.eq_iff_iff, hc.sameType_iff hw (hc.bound?_symbolOf hu),
    hg.sameType_iff hv (hg.bound?_symbolOf ht)]
  exact (hp.like_iff (hp.like hh hw hvw) hl).symm

theorem Paired.isErrorType_eq (hp : Paired p V g h)
    (hl : Like p.type g h t u) : h.isErrorType u = g.isErrorType t := by
  have herror : ∀ {g : TypeGraph} {t d}, g.def? t = some d →
      g.isErrorType t = decide (d.kind = .error) := by
    intro g t d hd
    simp [isErrorType, hd, TypeDef.isError]
  obtain ⟨ht, hu⟩ := hl.hasType
  obtain ⟨d, hd⟩ := ht.exists_def?
  obtain ⟨d', hd'⟩ := hu.exists_def?
  have hk : g.kind? t = some d.kind := by simp [kind?, hd]
  have hk' : h.kind? u = some d'.kind := by simp [kind?, hd']
  rw [herror hd, herror hd']
  cases hl with
  | plain htu =>
    obtain ⟨d₁, d₁', hd₁, hd₁', hdefs⟩ := hp.types htu hu
    cases hd.symm.trans hd₁
    cases hd'.symm.trans hd₁'
    have hkinds := hdefs.kind
    generalize d.kind = kind at hkinds
    generalize d'.kind = kind' at hkinds
    cases hkinds <;> simp
  | array hkind hkind' =>
    rw [Option.some.inj (hk.symm.trans hkind), Option.some.inj (hk'.symm.trans hkind')]
    simp
  | reference hkind hkind' =>
    rw [Option.some.inj (hk.symm.trans hkind), Option.some.inj (hk'.symm.trans hkind')]
    simp

/-- Like types are paired, or they are made of others and have neither members nor signatures. -/
theorem Paired.cases_of_like (hp : Paired p V g h) (hg : g.Plain)
    (hh : h.Plain) (hl : Like p.type g h t u) :
    ∃ d d', g.def? t = some d ∧ h.def? u = some d' ∧ (p.type t u ∧ p.Defs d d' ∨
      d.memberScope = .empty ∧ d.signatures = [] ∧ d'.memberScope = .empty ∧ d'.signatures = []) := by
  obtain ⟨ht, hu⟩ := hl.hasType
  obtain ⟨d, hd⟩ := ht.exists_def?
  obtain ⟨d', hd'⟩ := hu.exists_def?
  have hmade : ∀ {k k' e e'}, g.kind? t = some k → h.kind? u = some k' → k.part? = some e →
      k'.part? = some e' → d.memberScope = .empty ∧ d.signatures = [] ∧ d'.memberScope = .empty ∧
        d'.signatures = [] := by
    intro k k' e e' hk hk' he he'
    rw [kind?, hd, Option.map_some, Option.some.injEq] at hk
    rw [kind?, hd', Option.map_some, Option.some.injEq] at hk'
    obtain ⟨hscope, hsignatures⟩ := hg hd (by rw [hk, he]; rfl)
    obtain ⟨hscope', hsignatures'⟩ := hh hd' (by rw [hk', he']; rfl)
    exact ⟨hscope, hsignatures, hscope', hsignatures'⟩
  refine ⟨d, d', hd, hd', ?_⟩
  cases hl with
  | plain htu =>
    obtain ⟨d₁, d₁', hd₁, hd₁', hdefs⟩ := hp.types htu hu
    cases hd.symm.trans hd₁
    cases hd'.symm.trans hd₁'
    exact .inl ⟨htu, hdefs⟩
  | array hk hk' => exact .inr (hmade hk hk' rfl rfl)
  | reference hk hk' => exact .inr (hmade hk hk' rfl rfl)

/-- Two symbols of a graph that have like types, or none of which has a type. -/
def Tied (g : TypeGraph) (a b : SymbolId) : Prop :=
  (g.bound? a = none ∧ g.bound? b = none) ∨
    ∃ t u, g.bound? a = some t ∧ g.bound? b = some u ∧ Like Eq g g t u

namespace Tied

variable {c : SymbolId}

theorem refl (hg : g.Comparable) (a : SymbolId) : g.Tied a a := by
  cases ha : g.bound? a with
  | none => exact .inl ⟨ha, ha⟩
  | some t => exact .inr ⟨t, t, ha, ha, hg.refl ha⟩

theorem symm (hab : g.Tied a b) : g.Tied b a := by
  rcases hab with ⟨ha, hb⟩ | ⟨t, u, ha, hb, hl⟩
  · exact .inl ⟨hb, ha⟩
  · exact .inr ⟨u, t, hb, ha, hl.symm.imp Eq.symm⟩

theorem trans (hab : g.Tied a b) (hbc : g.Tied b c) : g.Tied a c := by
  rcases hab with ⟨ha, hb⟩ | ⟨t, u, ha, hb, hl⟩
  · rcases hbc with ⟨-, hc⟩ | ⟨_, _, hb', -⟩
    · exact .inl ⟨ha, hc⟩
    · cases hb.symm.trans hb'
  · rcases hbc with ⟨hb', -⟩ | ⟨u', v, hb', hc, hl'⟩
    · cases hb.symm.trans hb'
    · cases hb.symm.trans hb'
      exact .inr ⟨t, v, ha, hc, hl.trans hl' fun h h' => h.trans h'⟩

theorem of_sameUpToSize (hg : g.Comparable) (hsame : g.SameUpToSize a b) : g.Tied a b := by
  have hlike : ∀ {t u}, g.bound? a = some t → g.bound? b = some u → g.Tied a b := fun ha hb =>
    .inr ⟨_, _, ha, hb, hg.like_of_sameUpToSize hsame ha hb⟩
  cases hsame with
  | refl => exact .refl hg a
  | type ha hb => exact hlike ha hb
  | array ha hb => exact hlike ha hb
  | reference ha hb => exact hlike ha hb

theorem bound (hab : g.Tied a b) (hb : g.bound? b = some u) :
    ∃ t, g.bound? a = some t ∧ Like Eq g g t u := by
  rcases hab with ⟨-, hnone⟩ | ⟨t, u', ha, hb', hl⟩
  · cases hb.symm.trans hnone
  · cases hb.symm.trans hb'
    exact ⟨t, ha, hl⟩

end Tied

end TypeGraph

theorem TypeGraph.Paired.signatures {V : List SymbolId} {g h : TypeGraph}
    (hp : Paired p V g h) (hg : g.Comparable) (hh : h.Settled V D) (hc : h.Comparable) {t u : TypeId}
    (hl : Like p.type g h t u) :
    List.Forall₂ (fun s s' => p.symbol s.result s'.result ∧
        List.Forall₂ (Overload.Agree (Like p.type g h) g h) s.parameters s'.parameters)
      (((g.def? t).map TypeDef.signatures).getD []) (((h.def? u).map TypeDef.signatures).getD []) := by
  obtain ⟨d, d', hd, hd', hcases⟩ := hp.cases_of_like hg.plain hc.plain hl
  rw [hd, hd', Option.map_some, Option.map_some, Option.getD_some, Option.getD_some]
  rcases hcases with ⟨-, hdefs⟩ | ⟨-, hnone, -, hnone'⟩
  · have huses : ∀ s' ∈ d'.signatures, ∀ q' ∈ s'.parameters, h.isBound q'.type ∧ q'.type ∉ V := by
      intro s' hs q' hq
      have hmem : q'.type ∈ s'.uses := List.mem_cons_of_mem _ (List.mem_map_of_mem hq)
      have hknown := hh.uses hd' (TypeDef.signature_mem_uses hs hmem)
      exact ⟨hknown.1, hknown.2.1⟩
    refine ((List.forall₂_and_left _ _).mpr ⟨huses, hdefs.signatures.flip⟩).flip.imp ?_
    intro s s' hs
    refine ⟨hs.2.result, ((List.forall₂_and_left _ _).mpr ⟨hs.1, hs.2.parameters.flip⟩).flip.imp ?_⟩
    exact fun q q' hq => ⟨hq.2.name, hq.2.fallback, hp.sameType_eq hg hh hc hq.2.type hq.1.1 hq.1.2⟩
  · rw [hnone, hnone']
    exact .nil

end Binder
