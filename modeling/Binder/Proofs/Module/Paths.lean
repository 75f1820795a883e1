import Binder.Proofs.Module.Precedence

/-! The paths of declared types. A type is found by the names of the types around it and its own, the
outermost first. Which paths there are follows from the bindings of a module; while types are declared,
a builder stands at each path, and the builders nested in it stand where its path leads on to. -/
namespace Binder

open Binder.Tree (Expr Mark)

abbrev Path := List String

namespace Path

/-- The types nested in the type at a path are declared, each unless its name is taken. -/
def nest (p : Path) : List (Tree.Member Mark) → List Path → List Path
  | [], ps => ps
  | .nested name (.typeLiteral _ inner) :: rest, ps =>
      if p ++ [name] ∈ ps then nest p rest ps
      else nest p rest (nest (p ++ [name]) inner (ps ++ [p ++ [name]]))
  | _ :: rest, ps => nest p rest ps
termination_by members => sizeOf members

/-- The path that a type expression spells, if there is a declared type at it. -/
def of? (ps : List Path) : Expr → Option Path
  | .ident _ name => if [name] ∈ ps then some [name] else none
  | .selection _ target member =>
      (of? ps target).bind fun p => if p ++ [member] ∈ ps then some (p ++ [member]) else none
  | _ => none

/-- An extension adds nested types to a declared type. -/
def extend (ps : List Path) (x : Extension) : List Path :=
  match of? ps x.target with
  | some p => nest p x.members ps
  | none => ps

/-- The paths of types that are declared at the top level and of those nested in them. -/
def ofTypes (types : List (String × List (Tree.Member Mark))) : List Path :=
  types.foldl (fun ps d => nest [d.1] d.2 (ps ++ [[d.1]])) []

/-- The paths of all declared types of a module. -/
def declared (bindings : List Expr) : List Path :=
  (bindings.filterMap Tree.Node.extension?).foldl extend
    (ofTypes ((Tree.winningTypes bindings).filterMap Tree.Node.declaredType?))

end Path

variable {roots roots' : List BuilderId} {c c' : Context} {p q : Path} {ps : List Path}
  {i j k : BuilderId} {b b' : TypeBuilder} {V : List SymbolId} {d : DeclaredType}

namespace Context

/-- The builder of the type at a path. -/
inductive Stands (roots : List BuilderId) (c : Context) : Path → BuilderId → Prop
  | root {r : BuilderId} {b : TypeBuilder} : r ∈ roots → c.builders[r.index]? = some b →
      Stands roots c [c.graph.nameOf b.symbol] r
  | nested {p : Path} {i : BuilderId} {b : TypeBuilder} {x : SymbolId × BuilderId} :
      Stands roots c p i → c.builders[i.index]? = some b → x ∈ b.nested →
      Stands roots c (p ++ [c.graph.nameOf x.1]) x.2

/-- The types nested in those of the first builders are the same. -/
def Sheltered (n : Nat) (c c' : Context) : Prop := n ≤ c'.builders.size ∧
  ∀ i < n, (c'.builders[i]?).map TypeBuilder.nested = (c.builders[i]?).map TypeBuilder.nested

theorem Sheltered.set {n l : Nat} (h : Sheltered n c c') (hb : c'.builders[l]? = some b)
    (hnested : b'.nested = b.nested) : Sheltered n c (c'.setBuilders (c'.builders.setIfInBounds l b')) := by
  refine ⟨by simpa using h.1, fun i hi => ?_⟩
  rw [← h.2 i hi, builders_setBuilders]
  by_cases hil : l = i
  · subst hil
    rw [getElem?_set_self hb, hb, Option.map_some, Option.map_some, hnested]
  · rw [Array.getElem?_setIfInBounds_ne hil]

end Context

namespace Build

open Context

/-- Resolving and filling types concerns no builder that was there before, but for its members. -/
theorem sheltered_family (n : Nat) (c : Context) :
    Family (Preserves (Sheltered n c)) fun id => n ≤ id.index where
  pure := .pure
  bind := .bind
  read _ hf := .bind .get hf
  report _ _ _ := .modify fun _ hc => hc
  fold _ := .modifyGet fun _ hc => hc
  newSymbol _ := .modifyGet fun _ hc => hc
  newAnonymous _ := .modifyGet fun _ hc => hc
  pledge _ _ := .modify fun _ hc => hc
  write _ _ _ hf := .withBuilder fun _ b hb hc => hc.set hb (hf b)
  newBuilder symbol container scope hf := by
    constructor
    intro c₁ a c₂ hc heq
    obtain ⟨id, c', hnew, hrest⟩ := exists_of_bind_ok heq
    cases hnew
    refine (hf _ hc.1).at_end ⟨by simpa using Nat.le_succ_of_le hc.1, fun i hi => ?_⟩ hrest
    rw [← hc.2 i hi]
    show ((c₁.builders.push _)[i]?).map _ = _
    rw [Array.getElem?_push, if_neg (by have := hc.1; omega)]
  addNested symbol child hid := by
    refine .withBuilder fun c₁ b hb hc => ⟨by simpa using hc.1, fun i hi => ?_⟩
    rw [← hc.2 i hi, builders_setBuilders, Array.getElem?_setIfInBounds_ne (by omega)]
  finishType id := by
    constructor
    intro c₁ a c₂ hc heq
    cases hb : c₁.builders[id.index]? with
    | none =>
      cases (finishType_of_missing hb).symm.trans heq
      exact hc
    | some b =>
      rw [finishType_of_some hb] at heq
      have hwritten : Sheltered n c (finished c₁ id.index b) := hc.set hb rfl
      exact (Preserves.withInference fun _ hc => hc).at_end hwritten heq

end Build

namespace Context

variable {name : String}

namespace Stands

theorem builder (h : c.Coherent V) (hs : c.Stands roots p i) : ∃ b, c.builders[i.index]? = some b := by
  cases hs with
  | root _ hb => exact ⟨_, hb⟩
  | nested _ hb hx =>
    obtain ⟨child, hchild, -⟩ := (h.laid hb).nested _ hx
    exact ⟨child, hchild⟩

theorem ne_nil (hs : c.Stands roots p i) : p ≠ [] := by
  cases hs <;> simp

theorem of_snoc (hs : c.Stands roots (p ++ [name]) i) :
    (p = [] ∧ i ∈ roots ∧ ∃ b, c.builders[i.index]? = some b ∧ c.graph.nameOf b.symbol = name) ∨
      ∃ j b x, c.Stands roots p j ∧ c.builders[j.index]? = some b ∧ x ∈ b.nested ∧
        c.graph.nameOf x.1 = name ∧ x.2 = i := by
  generalize hq : p ++ [name] = q at hs
  cases hs with
  | root hr hb =>
    obtain ⟨rfl, hname⟩ := List.append_inj' (hq.trans (List.nil_append _).symm) rfl
    exact .inl ⟨rfl, hr, _, hb, (List.cons.inj hname).1.symm⟩
  | nested hs hb hx =>
    obtain ⟨rfl, hname⟩ := List.append_inj' hq rfl
    exact .inr ⟨_, _, _, hs, hb, hx, (List.cons.inj hname).1.symm, rfl⟩

theorem of_subset (hs : c.Stands roots p i) (hroots : roots ⊆ roots') : c.Stands roots' p i := by
  induction hs with
  | root hr hb => exact .root (hroots hr) hb
  | nested _ hb hx ih => exact .nested ih hb hx

theorem of_eq (hbuilders : c'.builders = c.builders) (hgraph : c'.graph = c.graph)
    (hs : c.Stands roots p i) : c'.Stands roots p i := by
  induction hs with
  | root hr hb => exact hgraph ▸ .root hr (hbuilders ▸ hb)
  | nested _ hb hx ih => exact hgraph ▸ .nested ih (hbuilders ▸ hb) hx

theorem within (hs : c.Stands roots p i) : ∃ r ∈ roots, Within c.builders i r := by
  induction hs with
  | root hr _ => exact ⟨_, hr, .refl⟩
  | @nested _ i b x _ hb hx ih =>
    obtain ⟨r, hr, hw⟩ := ih
    have hnested : NestedIn c.builders x.2 i := by
      simp only [NestedIn, nestedOf, hb, Option.map_some, Option.getD_some]
      exact List.mem_map_of_mem hx
    exact ⟨r, hr, .head hnested hw⟩

/-- Whatever is nested within a root has a place. -/
theorem of_within {r : BuilderId} (hr : r ∈ roots) (hb : c.builders[r.index]? = some b)
    (hw : Within c.builders i r) : ∃ p, c.Stands roots p i := by
  induction hw using Relation.ReflTransGen.head_induction_on with
  | refl => exact ⟨_, .root hr hb⟩
  | @head x j hx _ ih =>
    obtain ⟨p, hs⟩ := ih
    obtain ⟨y, hy, rfl⟩ := List.mem_map.mp hx
    cases hj : c.builders[j.index]? with
    | none => simp [hj] at hy
    | some b => exact ⟨_, .nested hs hj (by simpa [hj] using hy)⟩

theorem unbound (h : c.Standing V roots) (hs : c.Stands roots p i) (hb : c.builders[i.index]? = some b) :
    c.graph.bound? b.symbol = none := (h.open_iff hb).mpr hs.within

theorem mono (h : c.Coherent V) (hr : Resolves V c c') (hroots : roots ⊆ roots')
    (hnested : ∀ {l : Nat} {b b' : TypeBuilder}, c.builders[l]? = some b → c'.builders[l]? = some b' →
      b.nested ⊆ b'.nested) (hs : c.Stands roots p i) : c'.Stands roots' p i := by
  induction hs with
  | root hmem hb =>
    obtain ⟨b', hb', hsymbol, -⟩ := hr.builders hb
    rw [← TypeGraph.nameOf_eq_of_prefix hr.names (h.builder hb).2.2.2, ← hsymbol]
    exact .root (hroots hmem) hb'
  | nested _ hb hx ih =>
    obtain ⟨b', hb', -⟩ := hr.builders hb
    rw [← TypeGraph.nameOf_eq_of_prefix hr.names (h.hasSymbol_of_nested hb hx)]
    exact .nested ih hb' (hnested hb hb' hx)

/-- A type is at a new place only if it is a new root or was nested anew. -/
theorem old_or {N : Path → BuilderId → Prop} (h : c.Standing V roots) (hr : Resolves V c c')
    (hroots : ∀ r ∈ roots', r ∈ roots ∨ ∀ {b}, c'.builders[r.index]? = some b →
      N [c'.graph.nameOf b.symbol] r)
    (hnested : ∀ {p i b b' x}, c.Stands roots p i → c.builders[i.index]? = some b →
      c'.builders[i.index]? = some b' → x ∈ b'.nested →
      x ∈ b.nested ∨ N (p ++ [c'.graph.nameOf x.1]) x.2)
    (hnew : ∀ {p i b'}, N p i → c'.builders[i.index]? = some b' → b'.nested = [])
    (hs : c'.Stands roots' p i) : c.Stands roots p i ∨ N p i := by
  induction hs with
  | @root r b' hmem hb' =>
    refine (hroots r hmem).imp (fun hold => ?_) fun hfresh => hfresh hb'
    obtain ⟨b, hb⟩ : ∃ b, c.builders[r.index]? = some b :=
      ⟨_, Array.getElem?_eq_getElem (h.outermost r hold).1⟩
    obtain ⟨_, hb₁, hsymbol, -⟩ := hr.builders hb
    cases hb₁.symm.trans hb'
    rw [hsymbol, TypeGraph.nameOf_eq_of_prefix hr.names (h.builder hb).2.2.2]
    exact .root hold hb
  | nested _ hb' hx ih =>
    rcases ih with hold | hfresh
    · obtain ⟨b, hb⟩ := hold.builder h.toCoherent
      refine (hnested hold hb hb' hx).imp_left fun hx => ?_
      rw [TypeGraph.nameOf_eq_of_prefix hr.names (h.hasSymbol_of_nested hb hx)]
      exact .nested hold hb hx
    · rw [hnew hfresh hb'] at hx
      cases hx

theorem sheltered_iff (h : c.Standing V roots) (hr : Resolves V c c')
    (hshelter : Sheltered c.builders.size c c') : c'.Stands roots p i ↔ c.Stands roots p i := by
  have hnested : ∀ {l : Nat} {b b' : TypeBuilder}, c.builders[l]? = some b → c'.builders[l]? = some b' →
      b'.nested = b.nested := by
    intro l b b' hb hb'
    have heq := hshelter.2 l (Array.getElem?_eq_some_iff.mp hb).1
    rw [hb, hb'] at heq
    exact Option.some.inj heq
  constructor
  · intro hs
    refine (hs.old_or (N := fun _ _ => False) h hr (fun r hmem => .inl hmem) ?_ ?_).resolve_right id
    · exact fun _ hb hb' hx => .inl (hnested hb hb' ▸ hx)
    · exact fun hfalse => hfalse.elim
  · intro hs
    refine hs.mono h.toCoherent hr (List.Subset.refl _) fun hb hb' => ?_
    rw [hnested hb hb']
    exact List.Subset.refl _

end Stands

/-- There are types at some paths and nowhere else, and each has a place of its own. -/
structure Charts (roots : List BuilderId) (ps : List Path) (c : Context) : Prop where
  nodup : ps.Nodup
  mem_iff : ∀ {p}, p ∈ ps ↔ ∃ i, c.Stands roots p i
  builder : ∀ {p i j}, c.Stands roots p i → c.Stands roots p j → i = j
  path : ∀ {p q i}, c.Stands roots p i → c.Stands roots q i → p = q

namespace Charts

theorem congr (hc : c.Charts roots ps) (hiff : ∀ {p i}, c'.Stands roots' p i ↔ c.Stands roots p i) :
    c'.Charts roots' ps := by
  refine ⟨hc.nodup, ?_, fun hi hj => hc.builder (hiff.mp hi) (hiff.mp hj),
    fun hp hq => hc.path (hiff.mp hp) (hiff.mp hq)⟩
  intro p
  simp only [hiff, hc.mem_iff]

theorem add (hc : c.Charts roots ps) (h : c.Coherent V)
    (hold : ∀ {p i}, c.Stands roots p i → c'.Stands roots' p i) (hnew : c'.Stands roots' q k)
    (hcases : ∀ {p i}, c'.Stands roots' p i → c.Stands roots p i ∨ p = q ∧ i = k) (hfree : q ∉ ps)
    (hfresh : c.builders.size ≤ k.index) : c'.Charts roots' (ps ++ [q]) := by
  have hapart : ∀ {p i}, c.Stands roots p i → p ≠ q ∧ i ≠ k := by
    intro p i hs
    refine ⟨?_, ?_⟩
    · rintro rfl
      exact hfree (hc.mem_iff.mpr ⟨i, hs⟩)
    · rintro rfl
      obtain ⟨b, hb⟩ := hs.builder h
      exact absurd (Array.getElem?_eq_some_iff.mp hb).1 (Nat.not_lt_of_le hfresh)
  refine ⟨hc.nodup.append (List.nodup_singleton q) (by simpa using hfree), ?_, ?_, ?_⟩
  · intro p
    rw [List.mem_append, List.mem_singleton, hc.mem_iff]
    constructor
    · rintro (⟨i, hi⟩ | rfl)
      · exact ⟨i, hold hi⟩
      · exact ⟨k, hnew⟩
    · rintro ⟨i, hi⟩
      exact (hcases hi).imp (fun hs => ⟨i, hs⟩) And.left
  · intro p i j hi hj
    rcases hcases hi with hi | ⟨rfl, rfl⟩ <;> rcases hcases hj with hj | ⟨hp, rfl⟩
    · exact hc.builder hi hj
    · exact absurd hp (hapart hi).1
    · exact absurd rfl (hapart hj).1
    · rfl
  · intro p q' i hp hq
    rcases hcases hp with hp | ⟨rfl, rfl⟩ <;> rcases hcases hq with hq | ⟨rfl, hi⟩
    · exact hc.path hp hq
    · exact absurd hi (hapart hp).2
    · exact absurd rfl (hapart hq).2
    · rfl

theorem stands_snoc (hc : c.Charts roots ps) (hp : c.Stands roots p i)
    (hb : c.builders[i.index]? = some b) : c.Stands roots (p ++ [name]) k ↔
      ∃ x ∈ b.nested, c.graph.nameOf x.1 = name ∧ x.2 = k := by
  constructor
  · intro hs
    rcases hs.of_snoc with ⟨rfl, -⟩ | ⟨j, b', x, hs, hb', hx, hname, hk⟩
    · exact absurd rfl hp.ne_nil
    · cases hc.builder hp hs
      cases hb.symm.trans hb'
      exact ⟨x, hx, hname, hk⟩
  · rintro ⟨x, hx, rfl, rfl⟩
    exact .nested hp hb hx

theorem lookup?_eq_none_iff (hc : c.Charts roots ps) (hp : c.Stands roots p i)
    (hb : c.builders[i.index]? = some b) (name : String) :
    lookup? name (c.namesOf b.nested).live = none ↔ p ++ [name] ∉ ps := by
  rw [Binder.lookup?_eq_none_iff, hc.mem_iff, not_exists]
  simp only [namesOf, List.forall_mem_map, hc.stands_snoc hp hb, not_exists, not_and]
  constructor
  · intro hfree k x hx hname
    exact absurd hname (hfree x hx)
  · intro hfree x hx hname
    exact hfree x.2 x hx hname rfl

end Charts

/-- The builders of some declared types, one for each. -/
def Heads (c : Context) (declared : List DeclaredType) (roots : List BuilderId) : Prop :=
  roots.map (fun r => (c.builders[r.index]?).map fun b => (b.symbol, b.container)) =
    declared.map fun d => some (d.entry.symbol, none)

namespace Heads

variable {declared : List DeclaredType}

variable (h : c.Heads declared roots)
include h

theorem of_mem (hr : i ∈ roots) : ∃ d ∈ declared, ∃ b,
    c.builders[i.index]? = some b ∧ b.symbol = d.entry.symbol ∧ b.container = none := by
  have hmem := List.mem_map_of_mem (f := fun r => (c.builders[r.index]?).map fun b =>
    (b.symbol, b.container)) hr
  rw [h] at hmem
  obtain ⟨d, hd, heq⟩ := List.mem_map.mp hmem
  obtain ⟨b, hb, hplace⟩ := Option.map_eq_some_iff.mp heq.symm
  exact ⟨d, hd, b, hb, Prod.mk.inj hplace⟩

theorem of_declared (hd : d ∈ declared) :
    ∃ r ∈ roots, ∃ b, c.builders[r.index]? = some b ∧ b.symbol = d.entry.symbol := by
  have hmem := List.mem_map_of_mem (f := fun d : DeclaredType =>
    some (d.entry.symbol, (none : Option SymbolId))) hd
  rw [← h] at hmem
  obtain ⟨r, hr, heq⟩ := List.mem_map.mp hmem
  obtain ⟨b, hb, hplace⟩ := Option.map_eq_some_iff.mp heq
  exact ⟨r, hr, b, hb, (Prod.mk.inj hplace).1⟩

theorem resolves (hr : Resolves V c c') : c'.Heads declared roots := by
  unfold Heads
  rw [← h]
  apply List.map_congr_left
  intro r hmem
  obtain ⟨d, -, b, hb, -⟩ := h.of_mem hmem
  obtain ⟨b', hb', hsymbol, hcontainer⟩ := hr.builders hb
  rw [hb, hb', Option.map_some, Option.map_some, hsymbol, hcontainer]

theorem of_stands (hs : c.Stands roots [name] i) :
    ∃ d ∈ declared, ∃ b, c.builders[i.index]? = some b ∧ b.symbol = d.entry.symbol ∧
      b.container = none ∧ c.graph.nameOf d.entry.symbol = name := by
  rcases hs.of_snoc (p := []) with ⟨-, hmem, b, hb, hname⟩ | ⟨_, _, _, hs, -⟩
  · obtain ⟨d, hd, b', hb', hsymbol, hcontainer⟩ := h.of_mem hmem
    cases hb.symm.trans hb'
    exact ⟨d, hd, b, hb, hsymbol, hcontainer, hsymbol ▸ hname⟩
  · exact absurd rfl hs.ne_nil

end Heads

end Context

namespace Build

open Context

theorem nested_charts (h : c.Standing V roots) (hc : c.Charts roots ps) (hp : c.Stands roots p i)
    (hb : c.builders[i.index]? = some b) {name : String} (hfree : p ++ [name] ∉ ps)
    (hadd : (b.addType ⟨name, (c.graph.newSymbol name).1⟩).1) (hc' : c' = nest c i b name) :
    Declares V roots c c' ∧ (∀ {q j}, c.Stands roots q j → c'.Stands roots q j) ∧
      c'.Stands roots (p ++ [name]) ⟨c.builders.size⟩ ∧ c'.Charts roots (ps ++ [p ++ [name]]) := by
  have hopen := hp.unbound h hb
  have hlt : i.index < c.builders.size := (Array.getElem?_eq_some_iff.mp hb).1
  have hdeclares : Declares V roots c c' := hc' ▸ declares_nested h hb hopen hadd
  -- Only the builder around the new one has changed.
  have hcases : ∀ {l : Nat} {x : TypeBuilder}, c'.builders[l]? = some x →
      (l = i.index ∧ x.nested = b.nested ++ [((c.graph.newSymbol name).1, ⟨c.builders.size⟩)]) ∨
      (l = c.builders.size ∧ x.nested = []) ∨ l ≠ i.index ∧ c.builders[l]? = some x := by
    intro l x hx
    rw [hc'] at hx
    rcases getElem?_set_cases hx with ⟨rfl, rfl⟩ | ⟨hl, hx⟩
    · exact .inl ⟨rfl, rfl⟩
    · rcases getElem?_push_cases hx with ⟨hsize, rfl⟩ | ⟨-, hx⟩
      · exact .inr (.inl ⟨hsize, rfl⟩)
      · exact .inr (.inr ⟨hl, hx⟩)
  have hname : c'.graph.nameOf (c.graph.newSymbol name).1 = name := by
    rw [hc']
    exact (TypeGraph.nameOf_newSymbol ..).trans (if_pos rfl)
  obtain ⟨b', hb', -⟩ := hdeclares.resolves.builders hb
  have hnested : b'.nested = b.nested ++ [((c.graph.newSymbol name).1, ⟨c.builders.size⟩)] := by
    rcases hcases hb' with ⟨-, hnested⟩ | ⟨heq, -⟩ | ⟨hne, -⟩
    · exact hnested
    · exact absurd heq (Nat.ne_of_lt hlt)
    · exact absurd rfl hne
  have hold {q : Path} {j : BuilderId} (hs : c.Stands roots q j) : c'.Stands roots q j := by
    refine hs.mono h.toCoherent hdeclares.resolves (List.Subset.refl _) fun {l b₀ x} hb₀ hx => ?_
    rcases hcases hx with ⟨rfl, hnested⟩ | ⟨rfl, -⟩ | ⟨-, hx⟩
    · cases hb.symm.trans hb₀
      rw [hnested]
      exact List.subset_append_left ..
    · exact absurd (Array.getElem?_eq_some_iff.mp hb₀).1 (Nat.lt_irrefl _)
    · cases hb₀.symm.trans hx
      exact List.Subset.refl _
  have hstands : c'.Stands roots (p ++ [name]) ⟨c.builders.size⟩ := by
    have hs := Stands.nested (hold hp) hb' (hnested ▸ List.mem_append_right _ List.mem_cons_self)
    rwa [hname] at hs
  refine ⟨hdeclares, hold, hstands, hc.add h.toCoherent hold hstands ?_ hfree (Nat.le_refl _)⟩
  intro q j hs
  refine hs.old_or (N := fun q j => q = p ++ [name] ∧ j = ⟨c.builders.size⟩) h hdeclares.resolves
    (fun r hr => .inl hr) ?_ ?_
  · intro q j b₀ x y hq hb₀ hx hy
    rcases hcases hx with ⟨heq, hnested⟩ | ⟨heq, -⟩ | ⟨-, hx⟩
    · obtain rfl : j = i := congrArg BuilderId.mk heq
      cases hb.symm.trans hb₀
      rw [hnested] at hy
      refine (List.mem_append.mp hy).imp_right fun hy => ?_
      cases List.mem_singleton.mp hy
      exact ⟨by rw [hname, hc.path hq hp], rfl⟩
    · exact absurd heq (Nat.ne_of_lt (Array.getElem?_eq_some_iff.mp hb₀).1)
    · cases hb₀.symm.trans hx
      exact .inl hy
  · rintro q j x ⟨-, rfl⟩ hx
    rcases hcases hx with ⟨heq, -⟩ | ⟨-, hempty⟩ | ⟨-, hx⟩
    · exact absurd heq (Nat.ne_of_gt hlt)
    · exact hempty
    · exact absurd (Array.getElem?_eq_some_iff.mp hx).1 (Nat.lt_irrefl _)

/-- The types nested in a literal are declared at the paths that lead on from its own. -/
theorem declareNested_charts (id : BuilderId) (members : List (Tree.Member Mark))
    (h : c.Standing V roots) (hc : c.Charts roots ps) (hp : c.Stands roots p id) :
    Ends (declareNested id members) c fun _ c' => Declares V roots c c' ∧
      (∀ {q i}, c.Stands roots q i → c'.Stands roots q i) ∧ c'.Charts roots (p.nest members ps) := by
  fun_induction declareNested id members generalizing c p ps with
  | case1 id =>
    exact Ends.pure ⟨⟨.refl V c, h, rfl, fun _ => rfl, fun hs => hs⟩, fun hs => hs, by rwa [Path.nest]⟩
  | case2 id name note inner rest ihInner ihRest =>
    obtain ⟨b, hb⟩ := hp.builder h.toCoherent
    have hopen := hp.unbound h hb
    have hfree := hc.lookup?_eq_none_iff hp hb name
    rw [← congrArg ScopeBuilder.live ((h.laid hb).types hopen)] at hfree
    rw [← declareNested.eq_2]
    apply declareNested_literal hb
    · intro hadd
      have hnew : p ++ [name] ∉ ps := hfree.mp (TypeBuilder.addType_of_added hadd).1
      obtain ⟨hopened, hold, hstands, hcharts⟩ := nested_charts h hc hp hb hnew hadd rfl
      refine Ends.bind ((ihInner _ hopened.standing hcharts hstands).mono ?_)
      rintro inside c₁ ⟨hinside, hold₁, hcharts₁⟩
      refine Ends.bind ((ihRest hinside.standing hcharts₁ (hold₁ (hold hp))).mono ?_)
      rintro plans c₂ ⟨hrest, hold₂, hcharts₂⟩
      refine Ends.pure ⟨(hopened.trans hinside).trans hrest, fun hs => hold₂ (hold₁ (hold hs)), ?_⟩
      rwa [Path.nest, if_neg hnew]
    · intro hadd
      have hsymbol := declares_newSymbol h name
      have hreport := hsymbol.trans
        (declares_reported hsymbol.standing ⟨note.span, .duplicateSymbol⟩)
      have htaken : p ++ [name] ∈ ps := by
        by_contra hnot
        exact TypeBuilder.taken_of_addType hadd (hfree.mpr hnot)
      have hiff {q : Path} {i : BuilderId} := Stands.sheltered_iff (p := q) (i := i) h hreport.resolves
        ⟨Nat.le_refl _, fun _ _ => rfl⟩
      refine Ends.bind ((ihRest hreport.standing (hc.congr hiff) (hiff.mpr hp)).mono ?_)
      rintro plans c₁ ⟨hrest, hold, hcharts⟩
      refine Ends.pure ⟨hreport.trans hrest, fun hs => hold (hiff.mpr hs), ?_⟩
      rwa [Path.nest, if_pos htaken]
  | case3 id name value rest hvalue ih =>
    have hreport := declares_reported h ⟨value.span, .expectedTypeLiteral⟩
    have hiff {q : Path} {i : BuilderId} := Stands.sheltered_iff (p := q) (i := i) h hreport.resolves
      ⟨Nat.le_refl _, fun _ _ => rfl⟩
    refine Ends.bind (Ends.report ((ih hreport.standing (hc.congr hiff) (hiff.mpr hp)).mono ?_))
    rintro plans c₁ ⟨hrest, hold, hcharts⟩
    refine ⟨hreport.trans hrest, fun hs => hold (hiff.mpr hs), ?_⟩
    rw [Path.nest]
    · exact hcharts
    · exact fun _ note inner hmember => hvalue note inner (by cases hmember; rfl)
  | case4 id member rest hliteral hnested ih =>
    refine (ih h hc hp).mono ?_
    rintro plans c₁ ⟨hdeclares, hold, hcharts⟩
    refine ⟨hdeclares, hold, ?_⟩
    rw [Path.nest]
    · exact hcharts
    · exact fun name note inner heq => hnested name _ heq

theorem openType_charts (h : c.Standing V roots) (hfree : c.Free V d.entry.symbol)
    (hname : c.graph.nameOf d.entry.symbol = d.entry.name) (hc : c.Charts roots ps)
    (hnew : [d.entry.name] ∉ ps) :
    Ends (openType d) c fun o c' => Resolves V c c' ∧
      c'.Charts (o.1 :: roots) (Path.nest [d.entry.name] d.members (ps ++ [[d.entry.name]])) ∧
      ∃ b, c'.builders[o.1.index]? = some b ∧ b.symbol = d.entry.symbol ∧ b.container = none := by
  refine Ends.bind (Ends.newBuilder fun b hb => ?_)
  have hsymbol : b.symbol = d.entry.symbol := by rw [hb]
  have hnested : b.nested = [] := by rw [hb]
  have hr : Resolves V c (c.setBuilders (c.builders.push b)) := resolves_push b
  have hstanding := h.push (hsymbol ▸ hfree) (by rw [hb]) (by rw [hb]; nofun) (by rw [hb]) hnested
    (by rw [hb])
  have hat : (c.builders.push b)[c.builders.size]? = some b := Array.getElem?_push_size
  have hold {q : Path} {j : BuilderId} (hs : c.Stands roots q j) :
      (c.setBuilders (c.builders.push b)).Stands (⟨c.builders.size⟩ :: roots) q j := by
    refine hs.mono h.toCoherent hr (List.subset_cons_self ..) fun {l b₀ x} hb₀ hx => ?_
    rcases getElem?_push_cases hx with ⟨rfl, -⟩ | ⟨-, hx⟩
    · exact absurd (Array.getElem?_eq_some_iff.mp hb₀).1 (Nat.lt_irrefl _)
    · cases hb₀.symm.trans hx
      exact List.Subset.refl _
  have hstands : (c.setBuilders (c.builders.push b)).Stands (⟨c.builders.size⟩ :: roots)
      [d.entry.name] ⟨c.builders.size⟩ := by
    rw [← hname, ← hsymbol]
    exact .root List.mem_cons_self hat
  have hcharts := hc.add h.toCoherent hold hstands ?_ hnew (Nat.le_refl _)
  · refine Ends.bind ((declareNested_charts _ d.members hstanding hcharts hstands).mono ?_)
    rintro plans c₁ ⟨hdeclares, -, hcharts₁⟩
    obtain ⟨b₁, hb₁, hsymbol₁, hcontainer⟩ := hdeclares.resolves.builders hat
    exact Ends.pure ⟨hr.trans hdeclares.resolves, hcharts₁, b₁, hb₁, hsymbol₁.trans hsymbol,
      hcontainer.trans (by rw [hb])⟩
  · intro q j hs
    refine hs.old_or (N := fun q j => q = [d.entry.name] ∧ j = ⟨c.builders.size⟩) h hr ?_ ?_ ?_
    · intro r hmem
      refine (List.mem_cons.mp hmem).symm.imp_right ?_
      rintro rfl x hx
      cases hat.symm.trans hx
      exact ⟨by rw [← hname, ← hsymbol]; rfl, rfl⟩
    · intro q j b₀ x y hq hb₀ hx hy
      rcases getElem?_push_cases hx with ⟨heq, -⟩ | ⟨-, hx⟩
      · exact absurd heq (Nat.ne_of_lt (Array.getElem?_eq_some_iff.mp hb₀).1)
      · cases hb₀.symm.trans hx
        exact .inl hy
    · rintro q j x ⟨-, rfl⟩ hx
      cases hat.symm.trans hx
      exact hnested

theorem declareTypes_charts {bindings : List Expr} (h : c.Declared bindings)
    (hnames : (c.declared.map fun d => d.entry.name).Nodup) :
    Ends declareTypes c fun outermost c' => c'.Heads c.declared outermost ∧
      c'.Charts outermost (Path.ofTypes (c.declared.map fun d => (d.entry.name, d.members))) := by
  let opensWith (todo : List DeclaredType) (opened : List (BuilderId × List (Tree.Member Mark) × List Plan))
      (c' : Context) : Prop :=
    Opened c.valueSymbols c todo opened c' ∧ ∃ done, done ++ todo = c.declared ∧
      c'.Heads done (opened.map Prod.fst) ∧ c'.Charts (opened.map Prod.fst).reverse
        (Path.ofTypes (done.map fun d => (d.entry.name, d.members)))
  have hstep : ∀ d todo opened c', opensWith (d :: todo) opened c' →
      Ends (openType d) c' fun o c'' => opensWith todo (opened ++ [o]) c'' := by
    rintro d todo opened c' ⟨hopened, done, hdone, hheads, hcharts⟩
    have hname : ∀ x ∈ c.declared, c'.graph.nameOf x.entry.symbol = x.entry.name := by
      intro x hx
      have hfree := (TypeGraph.isUnbound_iff.mp (h.free _ (List.mem_map_of_mem hx)).unbound).1
      rw [TypeGraph.nameOf_eq_of_prefix hopened.resolves.names hfree, h.named x hx]
    have hnew : [d.entry.name] ∉ Path.ofTypes (done.map fun d => (d.entry.name, d.members)) := by
      intro hmem
      obtain ⟨i, hi⟩ := hcharts.mem_iff.mp hmem
      obtain ⟨x, hx, -, -, -, -, hsame⟩ := hheads.of_stands (hi.of_subset (by simp))
      rw [hname x (hdone ▸ List.mem_append_left _ hx)] at hsame
      rw [← hdone, List.map_append, List.map_cons, List.nodup_append] at hnames
      exact hnames.2.2 _ (List.mem_map_of_mem hx) _ List.mem_cons_self hsame
    have hd : d ∈ c.declared := hdone ▸ List.mem_append_right _ List.mem_cons_self
    refine (hopened.step.and (openType_charts hopened.standing (hopened.free d List.mem_cons_self)
      (hname d hd) hcharts hnew)).mono ?_
    rintro o c'' ⟨hopened', hresolves, hcharts', b, hb, hsymbol, hcontainer⟩
    refine ⟨hopened', done ++ [d], by rw [← hdone]; simp, ?_, ?_⟩
    · have hheads' := hheads.resolves hresolves
      unfold Heads at hheads' ⊢
      simp [hheads', hb, hsymbol, hcontainer]
    · simpa [Path.ofTypes] using hcharts'
  refine Ends.bind (Ends.get (Ends.bind ?_))
  have hstart : opensWith c.declared [] c := by
    refine ⟨.start h, [], rfl, rfl, ?_⟩
    have hnone {p : Path} {i : BuilderId} : ¬ c.Stands [] p i := fun hs => by
      obtain ⟨r, hr, -⟩ := hs.within
      cases hr
    exact ⟨List.nodup_nil, fun {p} => by simp [Path.ofTypes, hnone], fun hs => (hnone hs).elim,
      fun hs => (hnone hs).elim⟩
  refine (Ends.mapM hstep c.declared hstart).mono ?_
  rintro opened c₁ ⟨hopened, done, hdone, hheads, hcharts⟩
  rw [List.nil_append] at hopened hheads hcharts
  rw [List.append_nil] at hdone
  subst hdone
  refine Ends.bind ((hopened.fill_ends h).keep.mono ?_)
  rintro _ c₂ ⟨hfill, hfilled⟩
  have hfamily := sheltered_family c₁.builders.size c₁
  have hsheltered : Sheltered c₁.builders.size c₁ c₂ := by
    refine (hfamily.forM opened ?_).at_end ⟨Nat.le_refl _, fun _ _ => rfl⟩ hfill
    rintro ⟨id, members, plans⟩
    exact hfamily.bind (hfamily.populate members id none) fun _ => hfamily.populateNested members plans
  have hresolves := hfilled.resolved.resolves
  have hcharts₁ : c₁.Charts (opened.map Prod.fst) _ :=
    hcharts.congr ⟨fun hs => hs.of_subset (by simp), fun hs => hs.of_subset (by simp)⟩
  exact Ends.pure ⟨hheads.resolves hresolves,
    hcharts₁.congr (Stands.sheltered_iff (hopened.resolvable h).toStanding hresolves hsheltered)⟩

end Build
end Binder
