import Binder.Proofs.Renaming.Calm
import Binder.Proofs.Renaming.Run

/-! Passes under other numbers. A pass mirrors another one if it succeeds wherever the other does, and
if contexts that are the same but for numbers before are so afterwards. Types may be numbered anew on
the way: which numbers they get depends on the order in which builders are finished. -/
namespace Binder

open Binder.Tree (Expr Mark)

/-- The context with other numbers for the nodes that are filed in it. -/
def Renumbering.context (ρ : Renumbering) (c : Context) : Context :=
  { c with
    declared := c.declared.map ρ.declaredType
    definitions := c.definitions.map ρ.definition
    extensions := c.extensions.map ρ.extension
    expressions := c.expressions.map ρ.expr
    builders := c.builders.map ρ.builder
    fallbacks := c.fallbacks.map ρ.fallback
    values := c.values.map ρ.moduleValue }

namespace Context

variable {ρ : Renumbering} {V U : List SymbolId} {c c' : Context}

/-- The contexts are the same but for numbers; which numbers types have is left open. -/
def Renamed (ρ : Renumbering) (c c' : Context) : Prop :=
  ∃ τ s', c.inference.Renamed (ρ.retype τ) s' ∧ c' = { ρ.context c with inference := s' }

structure Alike (ρ : Renumbering) (V U : List SymbolId) (c c' : Context) : Prop where
  calm : c.Calm V U
  renamed : c.Renamed ρ c'

namespace Renamed

/-! What is read -/

variable (h : c.Renamed ρ c')
include h

theorem graph : ∃ τ, c.graph.Renamed (ρ.retype τ) c'.graph := by
  obtain ⟨τ, s', hs, rfl⟩ := h
  exact ⟨τ, hs.graph⟩

theorem builders : c'.builders = c.builders.map ρ.builder := by
  obtain ⟨τ, s', hs, rfl⟩ := h
  rfl

theorem builder? (i : Nat) : c'.builders[i]? = (c.builders[i]?).map ρ.builder := by
  rw [h.builders, Array.getElem?_map]

theorem around (scope : Option BuilderId) : c'.around scope = c.around scope := by
  cases scope with
  | none => rfl
  | some id =>
    simp only [Context.around, h.builder?]
    cases c.builders[id.index]? <;> rfl

theorem findTypeAt (id : BuilderId) (name : String) :
    ((c'.builders[id.index]?).bind fun b => b.findType? name) =
      (c.builders[id.index]?).bind fun b => b.findType? name := by
  rw [h.builder?]
  cases c.builders[id.index]? <;> rfl

theorem findEnclosed? (scope : Option BuilderId) (name : String) :
    c'.findEnclosed? scope name = c.findEnclosed? scope name := by
  simp only [Context.findEnclosed?, h.around, h.findTypeAt]

theorem find? (name : String) : c'.find? name = c.find? name := by
  obtain ⟨τ, s', hs, rfl⟩ := h
  rfl

theorem builderOf? (s : SymbolId) : c'.builderOf? s = c.builderOf? s := by
  rw [Context.builderOf?, h.builders, Array.findIdx?_map, Context.builderOf?]
  rfl

theorem findNested? (target : SymbolId) (name : String) :
    c'.findNested? target name = c.findNested? target name := by
  obtain ⟨τ, hg⟩ := h.graph
  simp only [Context.findNested?, hg.typeOf?, h.builderOf?, h.findTypeAt]
  cases c.graph.typeOf? target <;> rfl

/-! What is changed -/

theorem setBuilders (bs : Array TypeBuilder) :
    (c.setBuilders bs).Renamed ρ (c'.setBuilders (bs.map ρ.builder)) := by
  obtain ⟨τ, s', hs, rfl⟩ := h
  exact ⟨τ, s', hs, rfl⟩

end Renamed
end Context

namespace Build

variable {α β γ δ : Type} {R S T : Context → Context → Prop} {r : α → β} {p : Build α} {q : Build β}

/-- Wherever the first pass succeeds, the second one does and answers what corresponds, and both end
related. -/
def Mirrors (R S : Context → Context → Prop) (r : α → β) (p : Build α) (q : Build β) : Prop :=
  ∀ ⦃c c' : Context⦄, R c c' → ∀ ⦃a : α⦄ ⦃c₁ : Context⦄, p c = .ok a c₁ →
    ∃ c₁', q c' = .ok (r a) c₁' ∧ S c₁ c₁'

namespace Mirrors

variable {p : Build α} {q : Build β} {r : α → β} {s : γ → δ} {f : α → Build γ}

theorem pure (r : α → β) (a : α) : Mirrors R R r (Pure.pure a) (Pure.pure (r a)) := by
  intro c c' hc a' c₁ hp
  cases hp
  exact ⟨c', rfl, hc⟩

theorem bind_map {g : β → Build δ} (h : Mirrors R S r p q)
    (hrest : ∀ a, Mirrors S T s (f a) (g (r a))) : Mirrors R T s (p >>= f) (q >>= g) := by
  intro c c' hc x c₂ hp
  obtain ⟨a, c₁, hp, hf⟩ := exists_of_bind_ok hp
  obtain ⟨c₁', hq, hc₁⟩ := h hc hp
  obtain ⟨c₂', hg, hc₂⟩ := hrest a hc₁ hf
  exact ⟨c₂', (bind_of_ok hq).trans hg, hc₂⟩

theorem bind {q : Build α} {g : α → Build δ} (h : Mirrors R S id p q)
    (hrest : ∀ a, Mirrors S T s (f a) (g a)) : Mirrors R T s (p >>= f) (q >>= g) :=
  h.bind_map hrest

theorem get_bind {f : Context → Build α} {g : Context → Build β}
    (h : ∀ c c', R c c' → Mirrors R S r (f c) (g c')) :
    Mirrors R S r (get >>= f) (get >>= g) :=
  fun c c' hc _ _ hp => h c c' hc hc hp

theorem of_modify {f g : Context → Context} (h : ∀ c c', R c c' → S (f c) (g c')) :
    Mirrors R S id (modify f : Build Unit) (modify g) := by
  intro c c' hc a c₁ hp
  cases hp
  exact ⟨_, rfl, h c c' hc⟩

theorem of_modifyGet {f : Context → α × Context} {g : Context → β × Context}
    (h : ∀ c c', R c c' → (g c').1 = r (f c).1 ∧ S (f c).2 (g c').2) :
    Mirrors R S r (modifyGet f : Build α) (modifyGet g) := by
  intro c c' hc a c₁ hp
  cases hp
  obtain ⟨hr, hS⟩ := h c c' hc
  exact ⟨_, hr ▸ rfl, hS⟩

theorem forM {f : α → Build Unit} {g : β → Build Unit} {l : List α} {l' : List β}
    (hl : l' = l.map r) (h : ∀ a ∈ l, Mirrors R R id (f a) (g (r a))) :
    Mirrors R R id (l.forM f) (l'.forM g) := by
  subst hl
  induction l with
  | nil => exact pure id ()
  | cons a l ih =>
    exact (h a List.mem_cons_self).bind fun _ => ih fun b hb => h b (List.mem_cons_of_mem a hb)

end Mirrors

/-! What passes are made of -/

open Context

variable {ρ : Renumbering} {V U : List SymbolId}

theorem Mirrors.calm (h : Mirrors (Renamed ρ) (Renamed ρ) r p q)
    (hcalm : ∀ {c a c₁}, c.Calm V U → p c = .ok a c₁ → c₁.Calm V U) :
    Mirrors (Alike ρ V U) (Alike ρ V U) r p q := by
  intro c c' hc a c₁ hp
  obtain ⟨c₁', hq, hc₁⟩ := h hc.renamed hp
  exact ⟨c₁', hq, hcalm hc.calm hp, hc₁⟩

theorem report_renamed (span : Span) (fault : Fault) :
    Mirrors (Renamed ρ) (Renamed ρ) id (report span fault) (report span fault) := by
  refine .of_modify ?_
  rintro c _ ⟨τ, s', hs, rfl⟩
  exact ⟨τ, s', hs, rfl⟩

theorem report_mirrors (span : Span) (fault : Fault) :
    Mirrors (Alike ρ V U) (Alike ρ V U) id (report span fault) (report span fault) := by
  refine (report_renamed span fault).calm fun hcalm hp => ?_
  cases hp
  exact hcalm.congr rfl rfl

theorem reject_mirrors (span : Span) (fault : Fault) :
    Mirrors (Alike ρ V U) (Alike ρ V U) id (reject span fault) (reject span fault) :=
  (report_mirrors span fault).bind fun _ => .pure id _

theorem fold_renamed (e : Expr) :
    Mirrors (Renamed ρ) (Renamed ρ) id (fold e) (fold (ρ.expr e)) := by
  refine .of_modifyGet ?_
  rintro c _ ⟨τ, s', hs, rfl⟩
  simp only [ρ.eval_expr]
  exact ⟨rfl, τ, s', hs, rfl⟩

theorem fold_mirrors (e : Expr) :
    Mirrors (Alike ρ V U) (Alike ρ V U) id (fold e) (fold (ρ.expr e)) := by
  refine (fold_renamed e).calm fun hcalm hp => ?_
  cases hp
  exact hcalm.congr rfl rfl

theorem newSymbol_renamed (name : String) :
    Mirrors (Renamed ρ) (Renamed ρ) id (newSymbol name) (newSymbol name) := by
  refine .of_modifyGet ?_
  rintro c _ ⟨τ, s', hs, rfl⟩
  exact ⟨hs.graph.newSymbol_fst name, τ, { s' with graph := (s'.graph.newSymbol name).2 },
    { hs with graph := hs.graph.newSymbol name }, rfl⟩

/-- A builder may be opened for a new symbol. -/
theorem newSymbol_mirrors (name : String) {f : SymbolId → Build α}
    {g : SymbolId → Build β} (h : ∀ s, Mirrors (Alike ρ V (s :: U)) R r (f s) (g s)) :
    Mirrors (Alike ρ V U) R r (newSymbol name >>= f) (newSymbol name >>= g) := by
  intro c c' hc a c₁ hp
  obtain ⟨s, c₂, hnew, hf⟩ := exists_of_bind_ok hp
  obtain ⟨c₂', hnew', hc₂⟩ := newSymbol_renamed name hc.renamed hnew
  cases hnew
  obtain ⟨c₁', hg, hc₁⟩ := h _ ⟨hc.calm.newSymbol name, hc₂⟩ hf
  exact ⟨c₁', (bind_of_ok hnew').trans hg, hc₁⟩

/-- No builder need be opened for a symbol. -/
theorem Mirrors.drop {s : SymbolId}
    (h : Mirrors (Alike ρ V U) R r p q) : Mirrors (Alike ρ V (s :: U)) R r p q :=
  fun _ _ hc => h ⟨hc.calm.drop, hc.renamed⟩

theorem newAnonymous_mirrors (kind : TypeKind) :
    Mirrors (Alike ρ V U) (Alike ρ V U) id (newAnonymous kind) (newAnonymous kind) := by
  refine .of_modifyGet ?_
  rintro c _ ⟨hcalm, τ, s', hs, rfl⟩
  obtain ⟨hsymbol, hgraph⟩ := hs.graph.newAnonymous kind
  exact ⟨hsymbol, hcalm.newAnonymous kind, τ,
    { s' with graph := (s'.graph.newAnonymous kind).2 }, { hs with graph := hgraph }, rfl⟩

theorem offer_mirrors (e : Expr) (s : SymbolId) :
    Mirrors (Alike ρ V U) (Alike ρ V U) id
      (modify fun c => { c with fallbacks := c.fallbacks ++ [(e, s)] })
      (modify fun c => { c with fallbacks := c.fallbacks ++ [(ρ.expr e, s)] }) := by
  refine .of_modify ?_
  rintro c _ ⟨hcalm, τ, s', hs, rfl⟩
  refine ⟨hcalm.congr rfl rfl, τ, s', hs, ?_⟩
  simp only [Renumbering.context, List.map_append, List.map_singleton]
  rfl

theorem newBuilder_mirrors (symbol : SymbolId) (container : Option SymbolId)
    (scope : Option BuilderId) :
    Mirrors (Alike ρ V (symbol :: U)) (Alike ρ V U) id (newBuilder symbol container scope)
      (newBuilder symbol container scope) := by
  refine .of_modifyGet fun c c' hc => ?_
  have hsize : c'.builders.size = c.builders.size := by rw [hc.renamed.builders, Array.size_map]
  have hrenamed := hc.renamed.setBuilders
    (c.builders.push { symbol, container, enclosing := c.around scope })
  rw [Array.map_push, ← hc.renamed.builders] at hrenamed
  refine ⟨congrArg BuilderId.mk hsize, hc.calm.push ⟨List.nodup_nil, List.nodup_nil⟩, ?_⟩
  rw [hc.renamed.around]
  exact hrenamed

/-- Operations on a builder that neither move it nor take names twice. -/
structure Works (ρ : Renumbering) (f f' : TypeBuilder → α × TypeBuilder) : Prop where
  alike : ∀ b, f' (ρ.builder b) = ((f b).1, ρ.builder (f b).2)
  symbol : ∀ b, (f b).2.symbol = b.symbol
  named : ∀ {b}, b.Named → (f b).2.Named

theorem withBuilder_mirrors {f f' : TypeBuilder → α × TypeBuilder} (k : BuilderId) (missing : α)
    (h : Works ρ f f') :
    Mirrors (Alike ρ V U) (Alike ρ V U) id (withBuilder k missing f)
      (withBuilder k missing f') := by
  refine .of_modifyGet fun c c' hc => ?_
  rw [hc.renamed.builder?]
  cases hb : c.builders[k.index]? with
  | none => exact ⟨rfl, hc⟩
  | some b =>
    have hrenamed := hc.renamed.setBuilders (c.builders.setIfInBounds k.index (f b).2)
    rw [Array.map_setIfInBounds, ← hc.renamed.builders] at hrenamed
    simp only [Option.map_some, h.alike]
    exact ⟨rfl, hc.calm.set hb (h.symbol b) (h.named (hc.calm.named b (Array.mem_of_getElem? hb))),
      hrenamed⟩

theorem addMember_works (m : Member) :
    Works ρ (fun b => b.addMember m) fun b => b.addMember m where
  alike b := by
    by_cases hinserted : (b.memberScope.enter m).1.2 = true <;>
      simp [TypeBuilder.addMember, Renumbering.builder, hinserted]
  symbol b := (TypeBuilder.of_outline_eq (b.outline_addMember m)).1
  named {b} h := by
    simp only [TypeBuilder.addMember]
    split
    · exact ⟨ScopeBuilder.nodup_enter h.members, h.types⟩
    · exact h

theorem addSignature_works (s : Signature) :
    Works ρ (fun b => ((), b.addSignature s)) fun b => ((), b.addSignature (ρ.signature s)) where
  alike b := by
    simp only [TypeBuilder.addSignature, Renumbering.builder, List.map_append, List.map_singleton]
  symbol _ := rfl
  named h := ⟨h.members, h.types⟩

theorem addType_works (n : TypeName) : Works ρ (fun b => b.addType n) fun b => b.addType n where
  alike _ := rfl
  symbol _ := rfl
  named h := ⟨h.members, ScopeBuilder.nodup_enter h.types⟩

theorem addNested_works (s : SymbolId) (child : BuilderId) :
    Works ρ (fun b => ((), b.addNested s child)) fun b => ((), b.addNested s child) where
  alike _ := rfl
  symbol _ := rfl
  named h := ⟨h.members, h.types⟩

/-! Finishing -/

theorem quiet_renamed {σ : Renaming} {s s' : Inference.State} (h : s.Renamed σ s')
    (hs : s.Quiet V) : s'.Quiet V where
  members := h.groups ▸ hs.members
  blocked := by
    rw [h.blocked]
    intro w' hw'
    obtain ⟨w, hw, rfl⟩ := List.mem_map.mp hw'
    exact hs.blocked w hw
  settled := h.groups ▸ hs.settled

theorem finishType_mirrors (k : BuilderId) :
    Mirrors (Alike ρ V U) (Alike ρ V U) id (finishType k) (finishType k) := by
  rintro c c' hc _ c₁ hp
  have hb' := hc.renamed.builder? k.index
  cases hb : c.builders[k.index]? with
  | none =>
    rw [hb] at hb'
    cases (finishType_of_missing hb).symm.trans hp
    exact ⟨c', finishType_of_missing hb', hc⟩
  | some b =>
    rw [hb, Option.map_some] at hb'
    have hV := hc.calm.not_mem hb
    cases (finishType_eq hc.calm.quiet hb hV).symm.trans hp
    have hcalm := hc.calm.finished hb
    obtain ⟨hquiet, τ, s', hs, rfl⟩ := (⟨hc.calm.quiet, hc.renamed⟩ : _ ∧ _)
    refine ⟨_, finishType_eq (quiet_renamed hs hquiet) hb' hV, hcalm, τ,
      { s' with graph := (s'.graph.newType (ρ.builder b).made).2 },
      { hs with graph := hs.graph.newType b.made }, ?_⟩
    simp only [finished, Renumbering.context, setGraph, setBuilders, Array.map_setIfInBounds]
    rfl

theorem nestedOf_renamed {c c' : Context} (h : c.Renamed ρ c') :
    nestedOf c'.builders = nestedOf c.builders := by
  funext k
  rw [nestedOf, h.builder?, nestedOf]
  cases c.builders[k.index]? <;> rfl

theorem innermostFirst_congr {bs bs' : Array TypeBuilder} (h : nestedOf bs' = nestedOf bs)
    (depth : Nat) : innermostFirst bs' depth = innermostFirst bs depth := by
  induction depth with
  | zero => rfl
  | succ depth ih =>
    funext k
    rw [innermostFirst_succ, innermostFirst_succ, h, ih]

theorem finishTypes_mirrors (k : BuilderId) :
    Mirrors (Alike ρ V U) (Alike ρ V U) id (finishTypes k) (finishTypes k) := by
  refine .get_bind fun c c' hc => ?_
  have hlist : innermostFirst c'.builders c'.builders.size k =
      innermostFirst c.builders c.builders.size k := by
    rw [innermostFirst_congr (nestedOf_renamed hc.renamed), hc.renamed.builders, Array.size_map]
  exact .forM (hlist.trans (List.map_id _).symm) fun j _ => finishType_mirrors j

end Build
end Binder
