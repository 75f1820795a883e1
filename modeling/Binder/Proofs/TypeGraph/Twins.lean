import Binder.Proofs.TypeGraph.Pairing

/-! Graphs that are twins. A pairing may hold in both directions: whatever is paired is in both graphs, with
the same names and with paired definitions, and only the symbols of values may be bound to different
types. If the types of values are like, all texts are the same in both graphs. -/
namespace Binder

variable {α : Type} {d' : TypeDef}

namespace Pairing

variable {p : Pairing} {k k' : TypeKind}

def flip (p : Pairing) : Pairing where
  symbol x y := p.symbol y x
  type t u := p.type u t

theorem Kinds.flip (h : p.Kinds k k') : p.flip.Kinds k' k := by
  cases h with
  | record => exact .record
  | array he => exact .array he
  | reference he => exact .reference he
  | module => exact .module
  | error => exact .error

theorem Kinds.isSome_part? (h : p.Kinds k k') : k'.part?.isSome = k.part?.isSome := by
  cases h <;> rfl

theorem Signatures.flip {s s' : Signature} (h : p.Signatures s s') : p.flip.Signatures s' s where
  parameters := List.Forall₂.flip (h.parameters.imp fun _ _ hq => ⟨hq.name.symm, hq.type, hq.fallback.symm⟩)
  result := h.result

theorem Scopes.flip {R S : α → α → Prop} (hR : ∀ {a b}, R a b → S b a) {s s' : Scope α}
    (h : Scopes R s s') : Scopes S s' s := by
  cases h with
  | empty => exact .empty
  | table hl => exact .table (List.Forall₂.flip (hl.imp fun _ _ => hR))

theorem Defs.flip {d : TypeDef} (h : p.Defs d d') : p.flip.Defs d' d where
  symbol := h.symbol
  kind := h.kind.flip
  members := List.Forall₂.flip (h.members.imp fun _ _ hm => ⟨hm.name.symm, hm.kind.symm, hm.type⟩)
  memberScope := h.memberScope.flip fun hm => ⟨hm.name.symm, hm.kind.symm, hm.type⟩
  typeScope := h.typeScope.flip fun hn => ⟨hn.name.symm, hn.symbol⟩
  signatures := List.Forall₂.flip (h.signatures.imp fun _ _ hs => hs.flip)
  container := by
    have hcontainer := h.container
    generalize d.container = x at hcontainer
    generalize d'.container = x' at hcontainer
    cases hcontainer with
    | none => exact .none
    | some hx => exact .some hx
  plain hpart := by
    rw [h.kind.isSome_part?] at hpart
    obtain ⟨hscope, hsignatures⟩ := h.plain hpart
    have hscope' := h.memberScope
    have hsignatures' := h.signatures
    rw [hscope] at hscope'
    rw [hsignatures] at hsignatures'
    refine ⟨?_, List.forall₂_nil_left_iff.mp hsignatures'⟩
    generalize d'.memberScope = scope at hscope' ⊢
    cases hscope'
    rfl

end Pairing

namespace TypeGraph

variable {p : Pairing} {V : List SymbolId} {g g' h h' : TypeGraph} {t u : TypeId} {x y : SymbolId}

/-- Two graphs are what a pairing says in both directions; `V` are the symbols of values in both. -/
structure Twins (p : Pairing) (V : List SymbolId) (g h : TypeGraph) : Prop where
  types : ∀ {t u}, p.type t u → ∃ d d', g.def? t = some d ∧ h.def? u = some d' ∧ p.Defs d d'
  symbols : ∀ {x y}, p.symbol x y → (x ∈ V ∧ y ∈ V) ∨
    (x ∉ V ∧ y ∉ V ∧ ∃ t u, g.bound? x = some t ∧ h.bound? y = some u ∧ p.type t u)
  left : ∀ {t u u'}, p.type t u → p.type t u' → u = u'
  right : ∀ {t t' u}, p.type t u → p.type t' u → t = t'
  names : ∀ {x y}, p.symbol x y → h.nameOf y = g.nameOf x
  /-- symbols that are paired are the own symbols of their types, apart from those of values -/
  own : ∀ {x y t u}, p.symbol x y → x ∉ V → g.bound? x = some t → h.bound? y = some u →
    g.symbolOf t = x ∧ h.symbolOf u = y
  apart : ∀ {t u d d'}, p.type t u → g.def? t = some d → h.def? u = some d' →
    (d.symbol ∉ V ∧ ∀ z ∈ d.uses, z ∉ V) ∧ (d'.symbol ∉ V ∧ ∀ z ∈ d'.uses, z ∉ V)
  /-- arrays and references have no names -/
  anonymous : ∀ {t u d}, p.type t u → g.def? t = some d → d.kind.part?.isSome → g.nameOf d.symbol = ""

namespace Twins

theorem flip (ht : Twins p V g h) : Twins p.flip V h g where
  types := by
    intro t u htu
    obtain ⟨d, d', hd, hd', hdefs⟩ := ht.types htu
    exact ⟨d', d, hd', hd, hdefs.flip⟩
  symbols := by
    intro x y hxy
    rcases ht.symbols hxy with ⟨hx, hy⟩ | ⟨hx, hy, t, u, hxt, hyu, htu⟩
    · exact .inl ⟨hy, hx⟩
    · exact .inr ⟨hy, hx, u, t, hyu, hxt, htu⟩
  left htu htu' := ht.right htu htu'
  right htu htu' := ht.left htu htu'
  names hxy := (ht.names hxy).symm
  own := by
    intro x y t u hxy hx hxt hyu
    have hy : y ∉ V := by
      rcases ht.symbols hxy with ⟨-, hmem⟩ | ⟨hy, -⟩
      · exact absurd hmem hx
      · exact hy
    exact (ht.own hxy hy hyu hxt).symm
  apart htu hd hd' := (ht.apart htu hd' hd).symm
  anonymous := by
    intro t u d' htu hd' hpart
    obtain ⟨d, d₁, hd, hd₁, hdefs⟩ := ht.types htu
    cases hd'.symm.trans hd₁
    rw [ht.names hdefs.symbol, ht.anonymous htu hd (hdefs.kind.isSome_part? ▸ hpart)]

theorem paired (ht : Twins p V g h) : Paired p V g h where
  types htu _ := ht.types htu
  symbols := by
    intro x y u hxy hy hyu
    rcases ht.symbols hxy with ⟨-, hmem⟩ | ⟨-, -, t, u', hxt, hyu', htu⟩
    · exact absurd hmem hy
    · cases hyu.symm.trans hyu'
      exact ⟨t, hxt, htu⟩
  left := ht.left
  right := ht.right

theorem sizeless (ht : Twins p V g h) (hall : ∀ {t}, g.HasType t → ∃ u, p.type t u) : g.Sizeless := by
  intro t e n hk
  obtain ⟨d, hd, hkind⟩ := Option.map_eq_some_iff.mp hk
  obtain ⟨u, htu⟩ := hall (.of_def? hd)
  obtain ⟨d₁, d', hd₁, -, hdefs⟩ := ht.types htu
  cases hd.symm.trans hd₁
  have hkinds := hdefs.kind
  rw [hkind] at hkinds
  generalize d'.kind = k' at hkinds
  cases hkinds
  rfl

theorem plain (ht : Twins p V g h) (hall : ∀ {t}, g.HasType t → ∃ u, p.type t u) : g.Plain := by
  intro t d hd hpart
  obtain ⟨u, htu⟩ := hall (.of_def? hd)
  obtain ⟨d₁, d', hd₁, -, hdefs⟩ := ht.types htu
  cases hd.symm.trans hd₁
  exact hdefs.plain hpart

end Twins

/-- Twins whose texts can be compared: all paired types are like, and all types that are made of others
are paired. -/
structure Legible (p : Pairing) (V : List SymbolId) (g h : TypeGraph) : Prop extends
    Twins p V g h where
  like : ∀ {t u}, p.type t u → Like p.type g h t u
  covered : ∀ {t d}, g.def? t = some d → d.kind.part?.isSome → ∃ u, p.type t u
  covered' : ∀ {u d}, h.def? u = some d → d.kind.part?.isSome → ∃ t, p.type t u

theorem mapM_eq {α β γ : Type} {R : α → β → Prop} {f : α → Option γ} {f' : β → Option γ}
    {l : List α} {l' : List β} (hl : List.Forall₂ R l l')
    (hf : ∀ a ∈ l, ∀ b, R a b → f' b = f a) : l'.mapM f' = l.mapM f := by
  induction hl with
  | nil => rfl
  | cons hab _ ih =>
    rw [List.mapM_cons, List.mapM_cons, hf _ List.mem_cons_self _ hab,
      ih fun a ha => hf a (List.mem_cons_of_mem _ ha)]

namespace Legible

variable {d : TypeDef} {e : SymbolId} {v : TypeId} {n : Nat}

theorem flip (hl : Legible p V g h) : Legible p.flip V h g where
  toTwins := hl.toTwins.flip
  like htu := (hl.like htu).symm
  covered := hl.covered'
  covered' := hl.covered

/-- Symbols that have the same text: ones that are paired, or nameless ones that are bound to like
types. -/
inductive Spelled (p : Pairing) (V : List SymbolId) (g h : TypeGraph) (x y : SymbolId) : Prop
  | paired : p.symbol x y → x ∉ V → Spelled p V g h x y
  | nameless {t u : TypeId} : g.nameOf x = "" → h.nameOf y = "" → g.bound? x = some t →
      h.bound? y = some u → Like p.type g h t u → Spelled p V g h x y

variable (hl : Legible p V g h)
include hl

theorem nameOf_symbol (hd : g.def? t = some d)
    (hpart : d.kind.part?.isSome) : g.nameOf d.symbol = "" := by
  obtain ⟨u, htu⟩ := hl.covered hd hpart
  exact hl.anonymous htu hd hpart

theorem isAnonymous_symbol (hd : g.def? t = some d)
    (he : d.kind.part? = some e) : g.isAnonymous d.symbol = true := by
  rw [isAnonymous, hl.nameOf_symbol hd (by rw [he]; rfl)]
  rfl

theorem symbolOf_part (hd : g.def? t = some d) (he : d.kind.part? = some e) (hv : g.bound? e = some v) :
    g.symbolOf v = e ∧ e ∉ V := by
  obtain ⟨u, htu⟩ := hl.covered hd (by rw [he]; rfl)
  obtain ⟨d₁, d', hd₁, hd', hdefs⟩ := hl.types htu
  cases hd.symm.trans hd₁
  have hV := (hl.apart htu hd hd').1.2 e (TypeDef.part_mem_uses he)
  have hpart : ∃ e', p.symbol e e' := by
    have hkinds := hdefs.kind
    generalize d.kind = k at he hkinds
    generalize d'.kind = k' at hkinds
    cases hkinds with
    | array he' | reference he' =>
      cases he
      exact ⟨_, he'⟩
    | record | module | error => cases he
  obtain ⟨e', he'⟩ := hpart
  rcases hl.symbols he' with ⟨hmem, -⟩ | ⟨-, -, v', w, hv', hw, -⟩
  · exact absurd hmem hV
  · cases hv.symm.trans hv'
    exact ⟨(hl.own he' hV hv hw).1, hV⟩

theorem spelled_part {e' : SymbolId} {w : TypeId}
    (hd : g.def? t = some d) (hd' : h.def? u = some d') (he : d.kind.part? = some e)
    (he' : d'.kind.part? = some e') (hv : g.bound? e = some v) (hw : h.bound? e' = some w)
    (hlike : Like p.type g h v w) : Spelled p V g h e e' := by
  obtain ⟨hown, hV⟩ := hl.symbolOf_part hd he hv
  obtain ⟨hown', -⟩ := hl.flip.symbolOf_part hd' he' hw
  have hmade : ∀ {k k'}, g.kind? v = some k → h.kind? w = some k' → k.part?.isSome →
      k'.part?.isSome → Spelled p V g h e e' := by
    intro k k' hk hk' hpart hpart'
    obtain ⟨dv, hdv, rfl⟩ := Option.map_eq_some_iff.mp hk
    obtain ⟨dw, hdw, rfl⟩ := Option.map_eq_some_iff.mp hk'
    rw [symbolOf_eq hdv] at hown
    rw [symbolOf_eq hdw] at hown'
    exact .nameless (hown ▸ hl.nameOf_symbol hdv hpart) (hown' ▸ hl.flip.nameOf_symbol hdw hpart')
      hv hw hlike
  cases hlike with
  | plain hvw =>
    obtain ⟨dv, dw, hdv, hdw, hdefs⟩ := hl.types hvw
    rw [symbolOf_eq hdv] at hown
    rw [symbolOf_eq hdw] at hown'
    exact .paired (hown ▸ hown' ▸ hdefs.symbol) hV
  | array hk hk' => exact hmade hk hk' rfl rfl
  | reference hk hk' => exact hmade hk hk' rfl rfl

theorem typeText?_succ (hsymbols : ∀ {x y}, Spelled p V g h x y → h.symbolText? n y = g.symbolText? n x)
    (hlike : Like p.type g h t u) : h.typeText? (n + 1) u = g.typeText? (n + 1) t := by
  cases hlike with
  | plain htu hk hk' hnone hnone' =>
    obtain ⟨d, d', hd, hd', hdefs⟩ := hl.types htu
    obtain ⟨⟨hV, huses⟩, -⟩ := hl.apart htu hd hd'
    rw [kind?, hd, Option.map_some, Option.some.injEq] at hk
    have hused : ∀ {x y}, p.symbol x y → x ∈ d.uses → h.symbolText? n y = g.symbolText? n x :=
      fun hxy hx => hsymbols (.paired hxy (huses _ hx))
    have hmembers : (d'.members.mapM fun m => (h.symbolText? n m.type).map (m.name ++ ": " ++ ·)) =
        d.members.mapM fun m => (g.symbolText? n m.type).map (m.name ++ ": " ++ ·) := by
      refine mapM_eq hdefs.members fun m hm m' hmm' => ?_
      rw [hused hmm'.type (TypeDef.listed_mem_uses hm), hmm'.name]
    have hparameters : ∀ s ∈ d.signatures, ∀ s', p.Signatures s s' →
        (s'.parameters.mapM fun q => (h.symbolText? n q.type).map (q.name ++ ": " ++ ·)) =
          s.parameters.mapM fun q => (g.symbolText? n q.type).map (q.name ++ ": " ++ ·) := by
      intro s hs s' hss'
      refine mapM_eq hss'.parameters fun q hq q' hqq' => ?_
      have hmem : q.type ∈ s.uses := List.mem_cons_of_mem _ (List.mem_map_of_mem hq)
      rw [hused hqq'.type (TypeDef.signature_mem_uses hs hmem), hqq'.name]
    have hsignatures : (d'.signatures.mapM fun (s : Signature) => do
          let parameters ← s.parameters.mapM fun (q : Parameter) =>
            (h.symbolText? n q.type).map (q.name ++ ": " ++ ·)
          return signatureFrame parameters (← h.symbolText? n s.result)) =
        d.signatures.mapM fun (s : Signature) => do
          let parameters ← s.parameters.mapM fun (q : Parameter) =>
            (g.symbolText? n q.type).map (q.name ++ ": " ++ ·)
          return signatureFrame parameters (← g.symbolText? n s.result) := by
      refine mapM_eq hdefs.signatures fun s hs s' hss' => ?_
      have hmem : s.result ∈ d.uses := TypeDef.signature_mem_uses hs List.mem_cons_self
      rw [hparameters s hs s' hss', hused hss'.result hmem]
    have hkinds := hdefs.kind
    simp only [typeText?, hd, hd', isAnonymous, hl.names hdefs.symbol, hmembers, hsignatures,
      hsymbols (.paired hdefs.symbol hV)]
    rw [← hk] at hnone
    generalize d.kind = kind at hkinds hnone
    generalize d'.kind = kind' at hkinds
    cases hkinds with
    | array | reference => cases hnone
    | record | module | error => rfl
  | array hk hk' hb hb' hlike =>
    obtain ⟨d, hd, hkind⟩ := Option.map_eq_some_iff.mp hk
    obtain ⟨d', hd', hkind'⟩ := Option.map_eq_some_iff.mp hk'
    have hpart := congrArg TypeKind.part? hkind
    have hpart' := congrArg TypeKind.part? hkind'
    rw [typeText?, typeText?, hd, hd']
    simp only [hl.isAnonymous_symbol hd hpart, hl.flip.isAnonymous_symbol hd' hpart', hkind, hkind',
      hsymbols (hl.spelled_part hd hd' hpart hpart' hb hb' hlike), Bool.not_true, Bool.false_eq_true,
      ↓reduceIte]
  | reference hk hk' hb hb' hlike =>
    obtain ⟨d, hd, hkind⟩ := Option.map_eq_some_iff.mp hk
    obtain ⟨d', hd', hkind'⟩ := Option.map_eq_some_iff.mp hk'
    have hpart := congrArg TypeKind.part? hkind
    have hpart' := congrArg TypeKind.part? hkind'
    rw [typeText?, typeText?, hd, hd']
    simp only [hl.isAnonymous_symbol hd hpart, hl.flip.isAnonymous_symbol hd' hpart', hkind, hkind',
      hsymbols (hl.spelled_part hd hd' hpart hpart' hb hb' hlike), Bool.not_true, Bool.false_eq_true,
      ↓reduceIte]

theorem symbolText?_succ (hsymbols : ∀ {x y}, Spelled p V g h x y → h.symbolText? n y = g.symbolText? n x)
    (htypes : ∀ {t u}, Like p.type g h t u → h.typeText? n u = g.typeText? n t)
    (hxy : Spelled p V g h x y) : h.symbolText? (n + 1) y = g.symbolText? (n + 1) x := by
  cases hxy with
  | nameless hname hname' hxt hyu hlike =>
    simp only [symbolText?, isAnonymous, hname, hname', hxt, hyu, htypes hlike]
    rfl
  | paired hxy hx =>
    rcases hl.symbols hxy with ⟨hmem, -⟩ | ⟨-, -, t, u, hxt, hyu, htu⟩
    · exact absurd hmem hx
    obtain ⟨d, d', hd, hd', hdefs⟩ := hl.types htu
    obtain ⟨⟨-, huses⟩, -⟩ := hl.apart htu hd hd'
    simp only [symbolText?, isAnonymous, hl.names hxy, typeOf?, hxt, hyu, Option.bind_some, hd, hd',
      htypes (hl.like htu)]
    have hcontainer := hdefs.container
    have hused : ∀ {z}, d.container = some z → z ∉ V := fun hz => huses _ (TypeDef.container_mem_uses hz)
    generalize d.container = z at hcontainer hused
    generalize d'.container = z' at hcontainer
    cases hcontainer with
    | none => rfl
    | some hz => simp only [hsymbols (.paired hz (hused rfl))]

/-- Texts are the same, however far they go into types. -/
theorem texts (n : Nat) : (∀ {x y}, Spelled p V g h x y → h.symbolText? n y = g.symbolText? n x) ∧
      ∀ {t u}, Like p.type g h t u → h.typeText? n u = g.typeText? n t := by
  induction n with
  | zero => exact ⟨fun _ => by rw [symbolText?, symbolText?], fun _ => by rw [typeText?, typeText?]⟩
  | succ n ih => exact ⟨hl.symbolText?_succ ih.1 ih.2, hl.typeText?_succ ih.1⟩

theorem symbolText_eq (hdepth : h.textDepth = g.textDepth)
    (hxy : Spelled p V g h x y) : h.symbolText y = g.symbolText x := by
  rw [symbolText, symbolText, hdepth, (hl.texts _).1 hxy]

end Legible
end TypeGraph
end Binder
