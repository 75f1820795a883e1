import Binder.Proofs.Inference.Typing
import Binder.Proofs.Module.Attesting
import Binder.Proofs.Module.Evaluation

/-! What a build without reports has found out. Every expression of the module that is evaluated has
types according to the rules of typing, all the way down; the values of the module agree with their
initialisers, and the fallbacks of parameters with the parameters. -/
namespace Binder

open Binder.Tree (Expr Mark NodeId)
open Inference (Task)

namespace Tree

/-- The expressions of a module that are evaluated: the initialisers of its values, the fallbacks of
parameters wherever they stand, and what stands at the top level by itself. -/
inductive Evaluates (root : Expr) : Expr → Prop where
  | initialiser {note mutable name ascription e} :
      Node.definition note mutable name ascription (some e) ∈ root.bindings →
      (Node.definition note mutable name ascription (some e)).declaredMembers? = none →
      Evaluates root e
  | fallback {x e} : x ∈ root.preorder → e ∈ x.defaults → Evaluates root e
  | bare {e} : e ∈ root.bindings →
      (∀ note mutable name ascription value, e ≠ .definition note mutable name ascription value) →
      (∀ note target members, e ≠ .extension note target members) → Evaluates root e

theorem mem_bindingsOf_of_defaults {x d : Expr} (hd : d ∈ x.defaults) (es : List Expr)
    (hx : x ∈ preorderOf es) : x ∈ preorderOf (bindingsOf es) := by
  induction es using bindings_induction with
  | nil => exact hx
  | group note items rest hitems hrest =>
    simp only [bindingsOf, Node.bindings, preorderOf_append, List.mem_append]
    rcases List.mem_append.mp hx with hx | hx
    · rcases List.mem_cons.mp hx with rfl | hx
      · cases hd
      · exact .inl (hitems hx)
    · exact .inr (hrest hx)
  | cons e rest hne he ih =>
    simp only [bindingsOf, he, preorderOf_append, preorderOf, List.append_nil, List.mem_append]
    exact (List.mem_append.mp hx).imp_right ih

end Tree

namespace Inference.State

variable {s : State} {x : Expr}

/-- Below a node that is no expression nothing is found faultless, so all nodes are reached if all that
are reached are faultless. -/
theorem mem_reached_of_faultless (e : Expr)
    (h : ∀ y ∈ e.reached, ∃ symbol, s.verdict? y = some ⟨symbol, none⟩) (hx : x ∈ e.preorder) :
    x ∈ e.reached := by
  induction e using Tree.operands_induction with
  | h e ih =>
    obtain ⟨symbol, hself⟩ := h e (Tree.mem_reached_self e)
    have hnodes : e.preorder = e :: e.operands.flatMap Tree.Node.preorder := by
      cases e with
      | sequence | definition | typeLiteral | arrayType | referenceType | extension => cases hself
      | _ => simp [Tree.Node.preorder, Tree.Node.operands, Tree.preorderOf_eq_flatMap]
    rw [hnodes] at hx
    rcases List.mem_cons.mp hx with rfl | hx
    · exact Tree.mem_reached_self x
    · obtain ⟨y, hy, hx⟩ := List.mem_flatMap.mp hx
      refine Tree.mem_reached_iff.mpr (.inr ⟨y, hy, ih y hy (fun z hz => h z ?_) hx⟩)
      exact Tree.mem_reached_iff.mpr (.inr ⟨y, hy, hz⟩)

theorem defaults_eq_nil {symbol : SymbolId}
    (h : s.verdict? x = some ⟨symbol, none⟩) : x.defaults = [] := by
  cases x with
  | typeLiteral | extension => cases h
  | _ => rfl

end Inference.State

namespace Context

variable {i m c : Context} {s : Inference.State} {bindings : List Expr} {x d e : Expr}

namespace Completed

theorem scope_eq (h : Completed bindings i m s c) : c.inference.scope = c.rootScope := by
  have hscope : c.inference.scope = s.scope := by
    rw [h.built.inference]
    rfl
  rw [hscope, h.concludes.advances.scope, h.appraised.scope, rootScope, rootScope, h.built.root]

theorem fallback_mem (h : Completed bindings i m s c) {t : TypeId} {type : TypeDef}
    {signature : Signature} {p : Parameter} (ht : c.graph.def? t = some type)
    (hsignature : signature ∈ type.signatures)
    (hp : p ∈ signature.parameters) (he : p.fallback = some e) : (e, p.type) ∈ m.fallbacks := by
  obtain ⟨name, module, -, -, hnone, hgraph⟩ := h.built.graph
  rw [hgraph, TypeGraph.def?_newType] at ht
  split at ht
  · cases ht
    rw [hnone] at hsignature
    cases hsignature
  · have hbefore : s.graph.def? t = some type := ht
    rw [TypeGraph.def?, h.concludes.advances.types] at hbefore
    exact h.appraised.resolvable.kept hbefore hsignature hp he

variable (h : Completed bindings i m s c) (hclean : c.diagnostics = [])

include h hclean

theorem silent : m.Silent s :=
  have hclean := h.built.clean hclean
  ⟨h.concludes, h.attested, hclean.1, hclean.2.1⟩

theorem typed_node (hx : x ∈ m.inferred) :
    ∃ symbol t, s.typeOf? x.id = some symbol ∧ s.verdict? x = some ⟨symbol, none⟩ ∧
      s.graph.bound? symbol = some t ∧ s.graph.isErrorType t = false := by
  obtain ⟨hreported, hinferred, hblocked, hvalues⟩ := h.built.clean hclean
  have hsilent := h.silent hclean
  have htyped : s.typeOf? x.id ≠ none := by
    intro hnone
    obtain ⟨_, _, _, _, _, _, _, _, hmem⟩ := h.attested.followed.unresolved x hx hnone
    rw [hblocked] at hmem
    cases hmem
  obtain ⟨symbol, hsymbol⟩ := Option.ne_none_iff_exists'.mp htyped
  obtain ⟨l, l', heq, -⟩ := List.lookup_eq_some_iff.mp hsymbol
  have hbound : s.graph.isBound symbol := by
    rcases (h.concludes.ready.tidy.typed (x.id, symbol) (by simp [heq])).1 with hmem | hbound
    · obtain ⟨v, hv, hsame⟩ := List.mem_map.mp hmem
      have hbound := hvalues v hv
      rwa [show v.member.type = symbol from hsame] at hbound
    · exact hbound
  obtain ⟨t, ht⟩ := TypeGraph.isBound_iff.mp hbound
  exact ⟨symbol, t, hsymbol, h.attested.verdict?_eq hreported hinferred hx hsymbol, ht,
    hsilent.isErrorType_eq hsymbol ht⟩

theorem mem_inferred (he : Task.infer e ∈ m.tasks) (hx : x ∈ e.preorder) : x ∈ m.inferred := by
  have hsilent := h.silent hclean
  refine hsilent.mem_inferred he (Inference.State.mem_reached_of_faultless (s := s) e (fun y hy => ?_) hx)
  obtain ⟨symbol, -, -, hverdict, -⟩ := h.typed_node hclean (hsilent.mem_inferred he hy)
  exact ⟨symbol, hverdict⟩

theorem defaults_eq_nil (he : Task.infer e ∈ m.tasks) (hx : x ∈ e.preorder) : x.defaults = [] := by
  obtain ⟨_, _, _, hverdict, _⟩ := h.typed_node hclean (h.mem_inferred hclean he hx)
  exact Inference.State.defaults_eq_nil hverdict

theorem infer_mem_of_pledges (hp : m.Pledges x d) (hd : d ∈ x.defaults) :
    Task.infer d ∈ m.tasks := by
  obtain ⟨f, t, hf, hcases⟩ := hp
  have hmem : Task.infer f ∈ m.tasks := (Silent.infer_mem_of_fallback hf).1
  rcases hcases with rfl | hx
  · exact hmem
  · rw [h.defaults_eq_nil hclean hmem hx] at hd
    cases hd

theorem infer_mem_of_defaults {b : Expr} (hb : b ∈ bindings) (hx : x ∈ b.preorder)
    (hd : d ∈ x.defaults) : Task.infer d ∈ m.tasks := by
  have hreported := (h.built.clean hclean).1
  have hprovided := h.appraised.covers hreported b hb
  have habsurd : ∀ {f}, Task.infer f ∈ m.tasks → x ∈ f.preorder → Task.infer d ∈ m.tasks := by
    intro f hf hxf
    rw [h.defaults_eq_nil hclean hf hxf] at hd
    cases hd
  unfold Provided at hprovided
  split at hprovided
  next note mutable name ascription value _ =>
    obtain ⟨v, hv, hdefinition⟩ := List.mem_map.mp hprovided
    simp only [Tree.Node.preorder, List.mem_cons, List.mem_append, List.cons_append] at hx
    rcases hx with rfl | hx | hx
    · cases hd
    · have hascription := h.appraised.ascriptions hreported v hv x
      rw [hdefinition] at hascription
      exact h.infer_mem_of_pledges hclean (hascription hx d hd) hd
    · cases value with
      | none => cases hx
      | some e => exact habsurd (Silent.infer_mem_of_value hv (by rw [hdefinition])).1 hx
  next => exact h.infer_mem_of_pledges hclean (hprovided x hx d hd) hd
  next => exact h.infer_mem_of_pledges hclean (hprovided x hx d hd) hd
  next => exact habsurd (Silent.infer_mem_of_expression hprovided) hx

theorem infer_mem_of_evaluates {root : Expr} (hroot : bindings = root.bindings)
    (he : Tree.Evaluates root e) : Task.infer e ∈ m.tasks := by
  have hcovers := h.appraised.covers (h.built.clean hclean).1
  rw [hroot] at hcovers
  cases he with
  | @initialiser note mutable name ascription _ hmem hvalue =>
    have hprovided := hcovers _ hmem
    simp only [Provided, hvalue] at hprovided
    obtain ⟨v, hv, hdefinition⟩ := List.mem_map.mp hprovided
    exact (Silent.infer_mem_of_value hv (by rw [hdefinition])).1
  | @fallback x _ hx hd =>
    have hmem := Tree.mem_bindingsOf_of_defaults hd [root] (List.mem_append_left _ hx)
    rw [Tree.bindingsOf, Tree.bindingsOf, List.append_nil] at hmem
    obtain ⟨b, hb, hxb⟩ := Tree.mem_preorderOf.mp hmem
    exact h.infer_mem_of_defaults hclean (hroot ▸ hb) hxb hd
  | bare hmem hdefinition hextension =>
    have hprovided := hcovers e hmem
    unfold Provided at hprovided
    split at hprovided
    · exact (hdefinition _ _ _ _ _ rfl).elim
    · exact (hextension _ _ _ rfl).elim
    next hmembers =>
      unfold Tree.Node.declaredMembers? at hmembers
      split at hmembers
      · exact (hdefinition _ _ _ _ _ rfl).elim
      · cases hmembers
    next => exact Silent.infer_mem_of_expression hprovided

/-- The nodes of an inferred expression have types according to the rules of typing. -/
theorem typed (he : Task.infer e ∈ m.tasks) (hx : x ∈ e.preorder) :
    ∃ symbol t, c.inference.typeOf? x.id = some symbol ∧ c.graph.bound? symbol = some t ∧
      c.graph.isErrorType t = false ∧ c.inference.Typing c.rootScope x symbol := by
  have hmem := h.mem_inferred hclean he hx
  have hsettled := h.concludes.ready.tidy.graph
  have hgrows := h.built.grows
  have hout : s.Outlasts c.inference := ⟨fun hn => (h.typeOf?_eq _).trans hn, hgrows⟩
  have herror : ∀ {t y}, s.graph.bound? y = some t → s.graph.isErrorType t = false →
      c.graph.isErrorType t = false := fun ht herror =>
    (TypeGraph.isErrorType_eq hgrows (hsettled.types ht)).trans herror
  obtain ⟨symbol, t, hsymbol, hverdict, ht, hsane⟩ := h.typed_node hclean hmem
  have hlater : c.inference.verdict? x = some ⟨symbol, none⟩ :=
    Inference.State.verdict?_mono hout (by rw [h.built.inference]; rfl)
      (Inference.Verdict.steady_of_settled hsettled (h.built.ranked h.concludes.ready) hgrows) hmem hverdict
  refine ⟨symbol, t, hout.typed hsymbol, hgrows.bound ht, herror ht hsane, ?_⟩
  rw [← h.scope_eq]
  refine Inference.State.typing_of_verdict? hlater fun y hy u hu => ?_
  have hoperand := h.attested.followed.provenance.operands x hmem y hy
  obtain ⟨a, t', ha, -, ht', hsane'⟩ := h.typed_node hclean hoperand
  have hresolved : s.resolved? y.id = some t' := Option.bind_eq_some_iff.mpr ⟨a, ha, ht'⟩
  cases hu.symm.trans (hout.resolved? hresolved)
  exact herror ht' hsane'

/-- A value denotes the same as its initialiser, up to the sizes of arrays. -/
theorem value_like_initialiser {v : ModuleValue} (hv : v ∈ m.values)
    (he : v.definition.value = some e) :
    ∃ symbol, c.inference.typeOf? e.id = some symbol ∧
      c.graph.SameUpToSize v.member.type symbol := by
  obtain ⟨hinfer, hpend⟩ := Silent.infer_mem_of_value hv he
  obtain ⟨symbol, -, hsymbol, -⟩ := h.typed_node hclean (Context.mem_inferred hinfer)
  have hlinked := ((h.silent hclean).kept hpend).linked h.concludes.ready.alert hsymbol
  have hbound := (h.built.clean hclean).2.2.2 v hv
  refine ⟨symbol, (h.typeOf?_eq e.id).trans hsymbol, TypeGraph.Alike.grows h.built.grows ?_⟩
  exact h.concludes.ready.tidy.sameUpToSize_of_linked hlinked hbound

theorem fallback_same_type {f : Expr × SymbolId} (hf : f ∈ m.fallbacks) :
    ∃ symbol, c.inference.typeOf? f.1.id = some symbol ∧ c.graph.sameType f.2 symbol := by
  have hinfer := (Silent.infer_mem_of_fallback hf).1
  obtain ⟨symbol, t, hsymbol, -, ht, -⟩ := h.typed_node hclean (Context.mem_inferred hinfer)
  obtain ⟨hexpected, htype, hsame⟩ := (h.silent hclean).compared hf
    (Option.bind_eq_some_iff.mpr ⟨symbol, hsymbol, ht⟩)
  have hsettled := h.concludes.ready.tidy.graph
  obtain ⟨rank, hrank⟩ := h.built.ranked h.concludes.ready
  refine ⟨symbol, (h.typeOf?_eq f.1.id).trans hsymbol, ?_⟩
  rw [hsettled.sameType_eq hrank h.built.grows hexpected (TypeGraph.isBound_iff.mpr ⟨t, ht⟩)]
  rw [TypeGraph.sameType_iff hsettled.ranked] at hsame ⊢
  exact hsame.congr_right (hsettled.bound?_symbolOf htype) ht

end Completed

/-- A build of a document that reports nothing has typed every expression that is evaluated, and the
types obey the rules of typing. Values have types that agree with their initialisers up to the
sizes of arrays, and fallbacks have the types of their parameters. -/
theorem clean_build_typed {d : Document} {k k' : Nat} {root : Expr}
    (hroot : d.lower k = .ok root k') {name : String} {c : Context}
    (hc : c = ((initial name).build root).1) (hclean : c.diagnostics = []) :
    (∀ e, Tree.Evaluates root e → ∀ x ∈ e.preorder,
      ∃ symbol t, c.inference.typeOf? x.id = some symbol ∧ c.graph.bound? symbol = some t ∧
        c.graph.isErrorType t = false ∧ c.inference.Typing c.rootScope x symbol) ∧
    (∀ v ∈ c.values, c.graph.isBound v.member.type ∧
      ∀ e, v.definition.value = some e → ∃ symbol, c.inference.typeOf? e.id = some symbol ∧
        c.graph.SameUpToSize v.member.type symbol) ∧
    (∀ t type signature p e, c.graph.def? t = some type → signature ∈ type.signatures →
      p ∈ signature.parameters → p.fallback = some e →
      ∃ symbol, c.inference.typeOf? e.id = some symbol ∧ c.graph.sameType p.type symbol) := by
  obtain ⟨i, m, s, hdone⟩ := exists_outcome_of_eq hroot hc
  refine ⟨?_, ?_, ?_⟩
  · intro e he x hx
    exact hdone.typed hclean (hdone.infer_mem_of_evaluates hclean rfl he) hx
  · intro v hv
    rw [hdone.built.values] at hv
    have hbound := (hdone.built.clean hclean).2.2.2 v hv
    exact ⟨hdone.built.grows.isBound hbound, fun e he => hdone.value_like_initialiser hclean hv he⟩
  · intro t type signature p e ht hsignature hp he
    exact hdone.fallback_same_type hclean (hdone.fallback_mem ht hsignature hp he)

/-- A value that refers to a value after it, and an expression that refers to the first value. -/
def forwardReference : Document where
  bindings := [
    .definition none false "next" none (some (.call none (.ident none "+")
      [.ident none "start", .namedArgument none "right" (.literal none (.int 1))])),
    .definition none true "start" (some (.ident none "Int")) (some (.literal none (.int 2))),
    .call none (.ident none "-") [.ident none "next"]]

/-- The initialiser of the first value, numbered. -/
def forwardSum : Expr :=
  .call ⟨⟨4⟩, .zero⟩ (.ident ⟨⟨0⟩, .zero⟩ "+") [.ident ⟨⟨1⟩, .zero⟩ "start",
    .namedArgument ⟨⟨3⟩, .zero⟩ "right" (.literal ⟨⟨2⟩, .zero⟩ (.int 1))]

def forwardRoot : Expr := forwardReference.root

theorem clean_build_typed_forwardReference :
    forwardReference.lower 0 = .ok forwardRoot 14 ∧
    ∃ c, c = ((initial "main").build forwardRoot).1 ∧ c.diagnostics = [] ∧
      ∃ symbol t, c.inference.typeOf? forwardSum.id = some symbol ∧
        c.graph.bound? symbol = some t ∧ c.graph.isErrorType t = false ∧
        c.inference.Typing c.rootScope forwardSum symbol := by
  have hlower : forwardReference.lower 0 = .ok forwardRoot 14 := rfl
  obtain ⟨c, hc⟩ : ∃ c, c = ((initial "main").build forwardRoot).1 := ⟨_, rfl⟩
  have hclean : c.diagnostics = [] := by
    rw [hc, Build.build_eq_evaluate, ← List.isEmpty_iff]
    decide +kernel
  have hsum : Tree.Evaluates forwardRoot forwardSum := .initialiser List.mem_cons_self rfl
  have htyped := (clean_build_typed hlower hc hclean).1 forwardSum hsum
  exact ⟨hlower, c, hc, hclean, htyped forwardSum (Tree.mem_preorder_self _)⟩

end Context
end Binder
