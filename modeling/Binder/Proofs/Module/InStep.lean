import Binder.Proofs.Module.Parallel

/-! Passes that keep two contexts the same but for numbers. A pass and its counterpart do the same steps,
and what they answer corresponds; the counterpart of a pass over a tree is that over a tree that differs
in its notes only. -/
namespace Binder

open Binder.Tree (Expr Mark)

namespace Context

variable {σ : Shift} {c c' : Context} {id id' : BuilderId} {b b' : TypeBuilder} {x : SymbolId}

theorem builderOf?_push (c : Context) (b : TypeBuilder) (x : SymbolId) :
    (c.setBuilders (c.builders.push b)).builderOf? x =
      (c.builderOf? x).or (if b.symbol = x then some ⟨c.builders.size⟩ else none) := by
  simp only [builderOf?, builders_setBuilders, Array.findIdx?_push, decide_eq_true_eq]
  cases c.builders.findIdx? fun b => b.symbol = x with
  | some i => rfl
  | none => split <;> rfl

theorem builderOf?_set {i : Nat} (hb : c.builders[i]? = some b) (hsymbol : b'.symbol = b.symbol)
    (x : SymbolId) :
    (c.setBuilders (c.builders.setIfInBounds i b')).builderOf? x = c.builderOf? x := by
  have hmap : (c.builders.setIfInBounds i b').map TypeBuilder.symbol =
      c.builders.map TypeBuilder.symbol := by
    rw [Array.map_setIfInBounds, hsymbol]
    exact Build.setIfInBounds_eq_self (by rw [Array.getElem?_map, hb, Option.map_some])
  have hfind (bs : Array TypeBuilder) : bs.findIdx? (fun b => b.symbol = x) =
      (bs.map TypeBuilder.symbol).findIdx? (fun s => s = x) := by
    rw [Array.findIdx?_map]
    rfl
  simp only [builderOf?, builders_setBuilders, hfind, hmap]

namespace Parallel

theorem push (h : Parallel σ c c') (hb : σ.Builders b b') (hnested : b.nested = []) :
    Parallel σ (c.setBuilders (c.builders.push b)) (c'.setBuilders (c'.builders.push b')) := by
  refine h.setBuilders (h.builders.push hb) ?_ ?_
  · intro i b₁ n hb₁ hn
    rw [Array.size_push]
    rcases getElem?_push_cases hb₁ with ⟨-, rfl⟩ | ⟨-, hb₁⟩
    · rw [hnested] at hn
      cases hn
    · have hlater := h.nesting hb₁ hn
      omega
  · intro x y hx hnone
    have hfound := h.builderOf hx hnone
    rw [builderOf?_push, builderOf?_push]
    generalize c.builderOf? x = i at hfound
    generalize c'.builderOf? y = i' at hfound
    cases hfound with
    | some hi => exact .some hi
    | none =>
      simp only [Option.none_or, σ.symbol_eq_iff hb.symbol hx]
      split
      · exact .some h.builders.level.rel
      · exact .none

theorem set (h : Parallel σ c c') (hid : σ.builder id id') (hb : c.builders[id.index]? = some b)
    (hb' : c'.builders[id'.index]? = some b') {b₁ b₁' : TypeBuilder} (hrel : σ.Builders b₁ b₁')
    (hsymbol : b₁.symbol = b.symbol) (hsymbol' : b₁'.symbol = b'.symbol)
    (hnested : ∀ n ∈ b₁.nested,
      n ∈ b.nested ∨ id.index < n.2.index ∧ n.2.index < c.builders.size) :
    Parallel σ (c.setBuilders (c.builders.setIfInBounds id.index b₁))
      (c'.setBuilders (c'.builders.setIfInBounds id'.index b₁')) := by
  refine h.setBuilders (h.builders.set hid hrel) ?_ ?_
  · intro i b₂ n hb₂ hn
    rw [Array.size_setIfInBounds]
    rcases getElem?_set_cases hb₂ with ⟨rfl, rfl⟩ | ⟨-, hb₂⟩
    · rcases hnested n hn with hn | hlater
      · exact h.nesting hb hn
      · exact hlater
    · exact h.nesting hb₂ hn
  · intro x y hx hnone
    rw [builderOf?_set hb hsymbol, builderOf?_set hb' hsymbol']
    exact h.builderOf hx hnone

end Parallel
end Context

namespace Build

open Context

variable {σ : Shift} {α β : Type} {A : α → α → Prop} {B : β → β → Prop} {c c' : Context}
  {id id' : BuilderId} {symbol symbol' : SymbolId} {container container' : Option SymbolId}
  {b : TypeBuilder}

/-- Where two passes end that start from contexts that are parallel, the contexts still do, and
the answers correspond. -/
structure InStep (σ : Shift) (p p' : Build α) (A : α → α → Prop) : Prop where
  at_end : ∀ {c c' a a' c₁ c₁'}, Parallel σ c c' → p c = .ok a c₁ → p' c' = .ok a' c₁' →
    Parallel σ c₁ c₁' ∧ A a a'

namespace InStep

variable {f f' : α → Build β} {l : List α}

theorem pure {a a' : α} (h : A a a') : InStep σ (pure a) (pure a') A := by
  constructor
  intro c c' b b' c₁ c₁' hc hb hb'
  cases hb
  cases hb'
  exact ⟨hc, h⟩

theorem bind {p p' : Build α} (hp : InStep σ p p' A)
    (hf : ∀ {a a'}, A a a' → InStep σ (f a) (f' a') B) : InStep σ (p >>= f) (p' >>= f') B := by
  constructor
  intro c c' b b' c₂ c₂' hc hb hb'
  obtain ⟨a, c₁, ha, hb⟩ := exists_of_bind_ok hb
  obtain ⟨a', c₁', ha', hb'⟩ := exists_of_bind_ok hb'
  obtain ⟨hc₁, haa'⟩ := hp.at_end hc ha ha'
  exact (hf haa').at_end hc₁ hb hb'

theorem get : InStep σ (get : Build Context) get (Parallel σ) := by
  constructor
  intro c c' b b' c₁ c₁' hc hb hb'
  cases hb
  cases hb'
  exact ⟨hc, hc⟩

theorem modifyGet {f f' : Context → α × Context}
    (h : ∀ {c c'}, Parallel σ c c' → Parallel σ (f c).2 (f' c').2 ∧ A (f c).1 (f' c').1) :
    InStep σ (modifyGet f) (modifyGet f') A := by
  constructor
  intro c c' b b' c₁ c₁' hc hb hb'
  cases hb
  cases hb'
  exact h hc

theorem forM {R : α → β → Prop} {f : α → Build Unit} {f' : β → Build Unit} {l' : List β}
    (hl : List.Forall₂ R l l')
    (h : ∀ {a b}, R a b → InStep σ (f a) (f' b) fun _ _ => True) :
    InStep σ (l.forM f) (l'.forM f') fun _ _ => True := by
  induction hl with
  | nil => exact pure trivial
  | cons hab _ ih => exact (h hab).bind fun _ => ih

theorem mapM {R : α → α → Prop} {l' : List α} (hl : List.Forall₂ R l l')
    (h : ∀ {a b}, R a b → InStep σ (f a) (f' b) B) :
    InStep σ (l.mapM f) (l'.mapM f') (List.Forall₂ B) := by
  induction hl with
  | nil => exact pure .nil
  | cons hab _ ih =>
    rw [List.mapM_cons, List.mapM_cons]
    exact (h hab).bind fun hb => ih.bind fun hbs => pure (.cons hb hbs)

end InStep

theorem report_inStep (span span' : Span) (fault fault' : Fault) :
    InStep σ (report span fault) (report span' fault') fun _ _ => True :=
  .modifyGet fun hc => ⟨hc.reported _ _, trivial⟩

theorem reject_inStep (span span' : Span) (fault fault' : Fault) :
    InStep σ (reject span fault) (reject span' fault') σ.pairing.symbol :=
  (report_inStep _ _ _ _).bind fun _ => .pure σ.error

theorem newSymbol_inStep (name : String) :
    InStep σ (newSymbol name) (newSymbol name) σ.pairing.symbol :=
  .modifyGet fun hc =>
    ⟨hc.setGraph (hc.graph.newSymbol name) (TypeGraph.grows_newSymbol name), hc.graph.level.rel⟩

theorem newAnonymous_inStep {kind kind' : TypeKind} (h : σ.pairing.Kinds kind kind') :
    InStep σ (newAnonymous kind) (newAnonymous kind') σ.pairing.symbol := by
  apply InStep.modifyGet
  intro c c' hc
  have hsymbol : σ.pairing.symbol (c.graph.newSymbol "").1 (c'.graph.newSymbol "").1 :=
    hc.graph.level.rel
  have hd : σ.pairing.Defs { symbol := (c.graph.newSymbol "").1, kind := kind }
      { symbol := (c'.graph.newSymbol "").1, kind := kind' } :=
    ⟨hsymbol, h, .nil, .empty, .empty, .nil, .none, fun _ => ⟨rfl, rfl⟩⟩
  have hname : (c.graph.newSymbol "").2.HasSymbol (c.graph.newSymbol "").1 ∧
      (c.graph.newSymbol "").2.nameOf (c.graph.newSymbol "").1 = "" := by
    refine ⟨by simp [TypeGraph.HasSymbol, TypeGraph.newSymbol], ?_⟩
    exact (TypeGraph.nameOf_newSymbol ..).trans (if_pos rfl)
  refine ⟨?_, hsymbol⟩
  exact hc.setGraph ((hc.graph.newSymbol "").newType hd fun _ => hname)
    ((TypeGraph.grows_newSymbol "").trans (TypeGraph.grows_newType _))

theorem newBuilder_inStep {scope scope' : Option BuilderId}
    (hsymbol : σ.pairing.symbol symbol symbol')
    (hcontainer : Option.Rel σ.pairing.symbol container container')
    (hscope : Option.Rel σ.builder scope scope') :
    InStep σ (newBuilder symbol container scope) (newBuilder symbol' container' scope')
      σ.builder := by
  apply InStep.modifyGet
  intro c c' hc
  exact ⟨hc.push (.opened hsymbol hcontainer (hc.around hscope)) rfl, hc.builders.level.rel⟩

theorem withBuilder_inStep {missing missing' : α}
    {f f' : TypeBuilder → α × TypeBuilder} (hid : σ.builder id id') (hmissing : A missing missing')
    (hf : ∀ {b b'}, σ.Builders b b' → A (f b).1 (f' b').1 ∧ σ.Builders (f b).2 (f' b').2)
    (hkeep : ∀ b, (f b).2.symbol = b.symbol ∧ (f' b).2.symbol = b.symbol ∧
      (f b).2.nested = b.nested) :
    InStep σ (withBuilder id missing f) (withBuilder id' missing' f') A := by
  apply InStep.modifyGet
  intro c c' hc
  rcases rel_cases (hc.builders.entry hid) with ⟨hb, hb'⟩ | ⟨b, b', hb, hb', hrel⟩
  · simp only [hb, hb']
    exact ⟨hc, hmissing⟩
  · obtain ⟨hA, hrel⟩ := hf hrel
    obtain ⟨hsymbol, -, hnested⟩ := hkeep b
    simp only [hb, hb']
    refine ⟨hc.set hid hb hb' hrel hsymbol (hkeep b').2.1 fun n hn => .inl ?_, hA⟩
    rwa [← hnested]

theorem finishType_inStep (hid : σ.builder id id') :
    InStep σ (finishType id) (finishType id') fun _ _ => True := by
  constructor
  intro c c' a a' c₁ c₁' hc hp hp'
  refine ⟨?_, trivial⟩
  rcases rel_cases (hc.builders.entry hid) with ⟨hb, hb'⟩ | ⟨b, b', hb, hb', hrel⟩
  · cases (finishType_of_missing hb).symm.trans hp
    cases (finishType_of_missing hb').symm.trans hp'
    exact hc
  · obtain ⟨hV, hV'⟩ := σ.apart hrel.symbol
    cases (finishType_eq hc.quiet.1 hb hV).symm.trans hp
    cases (finishType_eq hc.quiet.2 hb' hV').symm.trans hp'
    have hplain : b.made.kind.part?.isSome → c.graph.HasSymbol b.made.symbol ∧
        c.graph.nameOf b.made.symbol = "" := by
      rw [TypeBuilder.made, hrel.kind.1]
      intro hpart
      cases hpart
    have hgraph := hc.setGraph (hc.graph.newType hrel.made hplain) (TypeGraph.grows_newType b.made)
    exact hgraph.set hid hb hb' hrel.emptied rfl rfl fun n hn => .inl hn

theorem finishTypes_of_missing (h : c.builders[id.index]? = none) :
    finishTypes id c = .ok () c := by
  simp only [finishTypes, get_bind]
  cases c.builders.size with
  | zero => rfl
  | succ n =>
    simp only [innermostFirst, h, Option.map_none, Option.getD_none, List.flatMap_nil,
      List.nil_append]
    exact bind_of_ok (finishType_of_missing h)

/-- How deep builders are looked for does not matter as long as it is deep enough. -/
theorem innermostFirst_rel (h : Parallel σ c c') (hid : σ.builder id id') {n n' : Nat}
    (hlt : id.index < c.builders.size) (hn : c.builders.size ≤ id.index + n)
    (hn' : c'.builders.size ≤ id'.index + n') :
    List.Forall₂ σ.builder (innermostFirst c.builders n id) (innermostFirst c'.builders n' id') := by
  induction n generalizing id id' n' with
  | zero => omega
  | succ n ih =>
    have hlt' := (Offset.Rel.lt_iff hid h.builders.level).mp hlt
    cases n' with
    | zero => omega
    | succ n' =>
      rcases rel_cases (h.builders.entry hid) with ⟨hnone, -⟩ | ⟨b, b', hb, hb', hrel⟩
      · exact absurd hlt (Nat.not_lt.mpr (Array.getElem?_eq_none_iff.mp hnone))
      · simp only [innermostFirst, hb, hb', Option.map_some, Option.getD_some]
        have hnested : List.Forall₂ (fun n n' => n ∈ b.nested ∧ σ.builder n.2 n'.2) b.nested b'.nested :=
          (List.forall₂_and_left _ _).mpr ⟨fun _ hm => hm, hrel.nested⟩
        refine List.rel_append (List.rel_flatMap hnested ?_) (.cons hid .nil)
        rintro m m' ⟨hm, hmm'⟩
        have hlater := h.nesting hb hm
        have hlater' := Offset.Rel.lt hid hmm' hlater.1
        exact ih hmm' hlater.2 (by omega) (by omega)

theorem finishTypes_inStep (hid : σ.builder id id') :
    InStep σ (finishTypes id) (finishTypes id') fun _ _ => True := by
  constructor
  intro c c' a a' c₁ c₁' hc hp hp'
  rcases rel_cases (hc.builders.entry hid) with ⟨hb, hb'⟩ | ⟨b, b', hb, -, -⟩
  · cases (finishTypes_of_missing hb).symm.trans hp
    cases (finishTypes_of_missing hb').symm.trans hp'
    exact ⟨hc, trivial⟩
  · have hlt := (Array.getElem?_eq_some_iff.mp hb).1
    have hlists := innermostFirst_rel hc hid hlt (Nat.le_add_left _ _) (Nat.le_add_left _ _)
    exact (InStep.forM hlists finishType_inStep).at_end hc hp hp'

/-- Plans that were made alike. -/
inductive Plans (σ : Shift) : List Plan → List Plan → Prop
  | nil : Plans σ [] []
  | refused {plans plans' : List Plan} : Plans σ plans plans' →
      Plans σ (.refused :: plans) (.refused :: plans')
  | accepted {symbol symbol' : SymbolId} {child child' : BuilderId}
      {inside inside' plans plans' : List Plan} :
      σ.builder child child' → Plans σ inside inside' → Plans σ plans plans' →
      Plans σ (.accepted symbol child inside :: plans) (.accepted symbol' child' inside' :: plans')

/-- The context in which a builder has a new one nested in it. -/
def nested (c : Context) (id : BuilderId) (b : TypeBuilder) (symbol : SymbolId)
    (container : Option SymbolId) : Context :=
  c.setBuilders ((c.builders.push
    { symbol := symbol, container := container, enclosing := c.around (some id) }).setIfInBounds
      id.index (b.addNested symbol ⟨c.builders.size⟩))

theorem nest_eq (hb : c.builders[id.index]? = some b)
    (symbol : SymbolId) (container : Option SymbolId) (accepted : BuilderId → Build α) :
    (do
      let child ← newBuilder symbol container (some id)
      withBuilder id () fun b => ((), b.addNested symbol child)
      accepted child) c = accepted ⟨c.builders.size⟩ (nested c id b symbol container) := by
  let c₁ := c.setBuilders (c.builders.push
    { symbol := symbol, container := container, enclosing := c.around (some id) })
  have hnew : newBuilder symbol container (some id) c = .ok ⟨c.builders.size⟩ c₁ := rfl
  have hb₁ : c₁.builders[id.index]? = some b := getElem?_push_of_some hb _
  rw [bind_of_ok hnew, bind_of_ok (withBuilder_eq hb₁ ..)]
  rfl

theorem nested_parallel (h : Parallel σ c c') {b' : TypeBuilder}
    (hid : σ.builder id id') (hb : c.builders[id.index]? = some b)
    (hb' : c'.builders[id'.index]? = some b') (hrel : σ.Builders b b')
    (hsymbol : σ.pairing.symbol symbol symbol')
    (hcontainer : Option.Rel σ.pairing.symbol container container') :
    Parallel σ (nested c id b symbol container) (nested c' id' b' symbol' container') := by
  obtain ⟨hlt, -⟩ := Array.getElem?_eq_some_iff.mp hb
  have hpush := h.push (.opened hsymbol hcontainer (h.around (.some hid))) rfl
  refine hpush.set hid (getElem?_push_of_some hb _) (getElem?_push_of_some hb' _) (hrel.addNested _ _ h.builders.level.rel) rfl rfl ?_
  intro n hn
  rcases List.mem_append.mp hn with hn | hn
  · exact .inl hn
  · rw [List.mem_singleton.mp hn, builders_setBuilders, Array.size_push]
    exact .inr ⟨hlt, Nat.lt_succ_self _⟩

theorem nest_inStep {name : String} {accepted accepted' : BuilderId → Build α}
    {refused refused' : Build α} (hid : σ.builder id id') (hsymbol : σ.pairing.symbol symbol symbol')
    (hcontainer : Option.Rel σ.pairing.symbol container container')
    (haccepted : ∀ {child child'}, σ.builder child child' →
      InStep σ (accepted child) (accepted' child') A)
    (hrefused : InStep σ refused refused' A) :
    InStep σ
      (do
        if ← withBuilder id false fun b => b.addType ⟨name, symbol⟩ then
          let child ← newBuilder symbol container (some id)
          withBuilder id () fun b => ((), b.addNested symbol child)
          accepted child
        else refused)
      (do
        if ← withBuilder id' false fun b => b.addType ⟨name, symbol'⟩ then
          let child ← newBuilder symbol' container' (some id')
          withBuilder id' () fun b => ((), b.addNested symbol' child)
          accepted' child
        else refused') A := by
  constructor
  intro c c' a a' c₁ c₁' hc hp hp'
  rcases rel_cases (hc.builders.entry hid) with ⟨hb, hb'⟩ | ⟨b, b', hb, hb', hrel⟩
  · rw [bind_of_ok (withBuilder_of_missing hb ..)] at hp
    rw [bind_of_ok (withBuilder_of_missing hb' ..)] at hp'
    exact hrefused.at_end hc hp hp'
  · have hname : σ.pairing.Names ⟨name, symbol⟩ ⟨name, symbol'⟩ := ⟨rfl, hsymbol⟩
    obtain ⟨heq, hadded⟩ := hrel.addType hname
    have hset := hc.set hid hb hb' hadded rfl rfl fun n hn => .inl hn
    rw [bind_of_ok (withBuilder_eq hb ..)] at hp
    rw [bind_of_ok (withBuilder_eq hb' ..), ← heq] at hp'
    split at hp
    next hinserted =>
      rw [if_pos hinserted] at hp'
      have hget : ∀ {c : Context} {id : BuilderId} {b₁ b : TypeBuilder},
          c.builders[id.index]? = some b →
            (c.builders.setIfInBounds id.index b₁)[id.index]? = some b₁ := by
        intro c id b₁ b hb
        exact Array.getElem?_setIfInBounds_self_of_lt (Array.getElem?_eq_some_iff.mp hb).1
      rw [nest_eq (hget hb)] at hp
      rw [nest_eq (hget hb')] at hp'
      have hnested := nested_parallel hset hid (hget hb) (hget hb') hadded hsymbol hcontainer
      exact (haccepted hset.builders.level.rel).at_end hnested hp hp'
    next hinserted =>
      rw [if_neg hinserted] at hp'
      exact hrefused.at_end hset hp hp'

end Build
end Binder
