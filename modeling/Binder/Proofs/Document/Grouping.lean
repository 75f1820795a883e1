import Binder.Proofs.Renaming.Building
import Binder.Proofs.Tree.Places

/-! Sequences at the top level. They group bindings and mean nothing else: taking the items of one out of
it changes the numbers of nodes alone, and what is told of the module stays the same. -/
namespace Binder

namespace Tree

variable {α : Type} {nodes nodes' : List (Node α)}

/-- One sequence at the top level, or within sequences there, is replaced by its items. -/
inductive Ungrouped : List (Node α) → List (Node α) → Prop
  | here (note : α) (items rest : List (Node α)) :
      Ungrouped (.sequence note items :: rest) (items ++ rest)
  | within (note : α) (rest : List (Node α)) {items items' : List (Node α)} :
      Ungrouped items items' → Ungrouped (.sequence note items :: rest) (.sequence note items' :: rest)
  | later (node : Node α) {rest rest' : List (Node α)} :
      Ungrouped rest rest' → Ungrouped (node :: rest) (node :: rest')

theorem bindingsOf_append (xs ys : List (Node α)) :
    bindingsOf (xs ++ ys) = bindingsOf xs ++ bindingsOf ys := by
  simp only [bindingsOf_eq_flatMap, List.flatMap_append]

theorem Ungrouped.isFilled (h : Ungrouped nodes nodes')
    (hfilled : (preorderOf nodes).all Node.isFilled = true) :
    (preorderOf nodes').all Node.isFilled = true ∧ (nodes ≠ [] → nodes' ≠ []) := by
  induction h with
  | here note items rest =>
    simp only [preorderOf, Node.preorder, preorderOf_append, List.cons_append, List.all_cons,
      Bool.and_eq_true] at hfilled ⊢
    refine ⟨hfilled.2, fun _ hnil => ?_⟩
    rw [(List.append_eq_nil_iff.mp hnil).1] at hfilled
    cases hfilled.1
  | @within note rest items items' _ ih =>
    simp only [preorderOf, Node.preorder, List.cons_append, List.all_cons, List.all_append,
      Bool.and_eq_true] at hfilled ⊢
    obtain ⟨hitem, hitems, hrest⟩ := hfilled
    obtain ⟨hitems', hne⟩ := ih hitems
    refine ⟨⟨?_, hitems', hrest⟩, fun _ => List.cons_ne_nil _ _⟩
    cases items with
    | nil => cases hitem
    | cons =>
      cases items' with
      | nil => exact absurd rfl (hne (List.cons_ne_nil _ _))
      | cons => rfl
  | later node _ ih =>
    simp only [preorderOf, List.all_append, Bool.and_eq_true] at hfilled ⊢
    exact ⟨⟨hfilled.1, (ih hfilled.2).1⟩, fun _ => List.cons_ne_nil _ _⟩

/-! Walks -/

/-- The bindings that a walk comes by. -/
def visited (events : List (Event α)) : List (Node α) :=
  events.filterMap fun
    | .visit binding => some binding
    | _ => none

end Tree

namespace Document

open Binder.Tree

variable {d d' : Document} {k k' : Nat} {root first first' e : Expr} {rest items : List Expr}

namespace Numbering

variable {β γ δ ε : Type} {R : β → γ → Prop} {S : δ → ε → Prop} {p : Numbering β} {q : Numbering γ}

/-- Wherever the first computation succeeds, the second one does from any number, and what they make is
related. -/
def Likewise (R : β → γ → Prop) (p : Numbering β) (q : Numbering γ) : Prop :=
  ∀ ⦃k b k'⦄, p k = .ok b k' → ∀ j, ∃ c j', q j = .ok c j' ∧ R b c

theorem Likewise.pure {b : β} {c : γ} (h : R b c) : Likewise R (pure b) (pure c) := by
  intro k b' k' hp j
  cases hp
  exact ⟨c, j, rfl, h⟩

theorem Likewise.bind {f : β → Numbering δ} {g : γ → Numbering ε} (h : Likewise R p q)
    (hrest : ∀ b c, R b c → Likewise S (f b) (g c)) : Likewise S (p >>= f) (q >>= g) := by
  intro k x k' hp j
  obtain ⟨b, k₁, hb, hf⟩ := of_bind hp
  obtain ⟨c, j₁, hc, hR⟩ := h hb j
  obtain ⟨y, j', hy, hS⟩ := hrest b c hR hf j₁
  refine ⟨y, j', ?_, hS⟩
  simp only [Bind.bind, EStateM.bind, hc]
  exact hy

theorem likewise_mark (span : Span) :
    Likewise (fun note note' => note.span = note'.span) (mark span) (mark span) := by
  intro k note k' hp j
  cases hp
  exact ⟨_, _, rfl, rfl⟩

end Numbering

open Binder.Document.Numbering

theorem renumbered_pair {right right' : Expr} {note note' : Mark}
    (h : Renumbered first first') (hright : Renumbered right right') (hnote : note.span = note'.span) :
    Renumbered (.sequence note [first, right]) (.sequence note' [first', right']) :=
  (places_of_forall₂ (.cons h (.cons hright .nil))).cons hnote fun _ hν hitems =>
    congrArg₂ Node.sequence hν hitems

theorem likewise_chain {rest' : List Expr} (h : Renumbered first first')
    (hrest : List.Forall₂ Renumbered rest rest') :
    Likewise Renumbered (chain first rest) (chain first' rest') := by
  induction hrest generalizing first first' with
  | nil => exact .pure h
  | cons hsecond _ ih =>
    refine (ih hsecond).bind fun right right' hright => ?_
    exact (likewise_mark _).bind fun note note' hnote => .pure (renumbered_pair h hright hnote)

theorem likewise_group (span : Span) {items' : List Expr}
    (h : List.Forall₂ Renumbered items items') :
    Likewise Renumbered (group span items) (group span items') := by
  match h with
  | .nil => exact fun _ _ _ hp => nomatch hp
  | .cons honly .nil => exact .pure honly
  | .cons hfirst (.cons hsecond hrest) =>
    refine (likewise_chain hsecond hrest).bind fun right right' hright => ?_
    exact (likewise_mark _).bind fun note note' hnote => .pure (renumbered_pair hfirst hright hnote)

mutual

theorem likewise_lowerNode : (e : Node (Option Span)) → Likewise Renumbered (lowerNode e) (lowerNode e)
  | .literal span value =>
    (likewise_mark _).bind fun _ _ hnote => .pure
      ((Places.nil fun _ => trivial).cons hnote fun _ hν _ => congrArg (Node.literal · value) hν)
  | .ident span name =>
    (likewise_mark _).bind fun _ _ hnote => .pure
      ((Places.nil fun _ => trivial).cons hnote fun _ hν _ => congrArg (Node.ident · name) hν)
  | .selection span target member =>
    (likewise_lowerNode target).bind fun _ _ ht => (likewise_mark _).bind fun _ _ hnote =>
      .pure (ht.cons hnote fun _ hν h => congrArg₂ (Node.selection · · member) hν h)
  | .call span target arguments =>
    (likewise_lowerNode target).bind fun _ _ ht =>
      (likewise_lowerNodes arguments).bind fun _ _ hes => (likewise_mark _).bind fun _ _ hnote =>
        .pure ((ht.append (places_of_forall₂ hes)).cons hnote fun _ hν h => by
          rw [Node.map, h.1, h.2]
          exact congrArg (Node.call · _ _) hν)
  | .namedArgument span name value =>
    (likewise_lowerNode value).bind fun _ _ hv => (likewise_mark _).bind fun _ _ hnote =>
      .pure (hv.cons hnote fun _ hν h => congrArg₂ (Node.namedArgument · name ·) hν h)
  | .sequence span items =>
    (likewise_lowerNodes items).bind fun _ _ hes => likewise_group _ hes
  | .definition span mutable name ascription value =>
    (likewise_lowerOption ascription).bind fun _ _ ha =>
      (likewise_lowerOption value).bind fun _ _ hv => (likewise_mark _).bind fun _ _ hnote =>
        .pure ((ha.append hv).cons hnote fun _ hν h => by
          rw [Node.map, h.1, h.2]
          exact congrArg (Node.definition · mutable name _ _) hν)
  | .typeLiteral span members =>
    (likewise_lowerMembers members).bind fun _ _ hms => (likewise_mark _).bind fun _ _ hnote =>
      .pure (hms.cons hnote fun _ hν h => congrArg₂ Node.typeLiteral hν h)
  | .arrayType span element size =>
    (likewise_lowerNode element).bind fun _ _ he =>
      (likewise_lowerOption size).bind fun _ _ hs => (likewise_mark _).bind fun _ _ hnote =>
        .pure ((he.append hs).cons hnote fun _ hν h => by
          rw [Node.map, h.1, h.2]
          exact congrArg (Node.arrayType · _ _) hν)
  | .referenceType span referent =>
    (likewise_lowerNode referent).bind fun _ _ hr => (likewise_mark _).bind fun _ _ hnote =>
      .pure (hr.cons hnote fun _ hν h => congrArg₂ Node.referenceType hν h)
  | .extension span target members =>
    (likewise_lowerNode target).bind fun _ _ ht =>
      (likewise_lowerMembers members).bind fun _ _ hms => (likewise_mark _).bind fun _ _ hnote =>
        .pure ((ht.append hms).cons hnote fun _ hν h => by
          rw [Node.map, h.1, h.2]
          exact congrArg (Node.extension · _ _) hν)

theorem likewise_lowerNodes : (es : List (Node (Option Span))) →
    Likewise (List.Forall₂ Renumbered) (lowerNodes es) (lowerNodes es)
  | [] => .pure .nil
  | e :: rest =>
    (likewise_lowerNode e).bind fun _ _ hx => (likewise_lowerNodes rest).bind fun _ _ hxs =>
      .pure (.cons hx hxs)

theorem likewise_lowerOption : (e : Option (Node (Option Span))) → Likewise
    (fun x y => Places (fun ν => mapOption (Mark.renumber ν) x = y) (preorderOption x) (preorderOption y))
    (lowerOption e) (lowerOption e)
  | none => .pure (.nil fun _ => rfl)
  | some e => (likewise_lowerNode e).bind fun _ _ hx => .pure (hx.mono fun _ h => congrArg some h)

theorem likewise_lowerMember : (m : Tree.Member (Option Span)) → Likewise
    (fun m m' => Places (fun ν => m.map (Mark.renumber ν) = m') m.preorder m'.preorder)
    (lowerMember m) (lowerMember m)
  | .field name type mutable =>
    (likewise_lowerNode type).bind fun _ _ ht =>
      .pure (ht.mono fun _ h => congrArg (Tree.Member.field name · mutable) h)
  | .signature parameters result =>
    (likewise_lowerParameters parameters).bind fun _ _ hps =>
      (likewise_lowerNode result).bind fun _ _ hr =>
        .pure ((hps.append hr).mono fun _ h => congrArg₂ Tree.Member.signature h.1 h.2)
  | .nested name value =>
    (likewise_lowerNode value).bind fun _ _ hv =>
      .pure (hv.mono fun _ h => congrArg (Tree.Member.nested name) h)

theorem likewise_lowerMembers : (ms : List (Tree.Member (Option Span))) → Likewise
    (fun ms ms' => Places (fun ν => mapMembers (Mark.renumber ν) ms = ms') (preorderMembers ms)
      (preorderMembers ms')) (lowerMembers ms) (lowerMembers ms)
  | [] => .pure (.nil fun _ => rfl)
  | m :: rest =>
    (likewise_lowerMember m).bind fun _ _ hm => (likewise_lowerMembers rest).bind fun _ _ hms =>
      .pure ((hm.append hms).mono fun _ h => congrArg₂ List.cons h.1 h.2)

theorem likewise_lowerParameter : (p : Tree.Parameter (Option Span)) → Likewise
    (fun p p' => Places (fun ν => p.map (Mark.renumber ν) = p') p.preorder p'.preorder)
    (lowerParameter p) (lowerParameter p)
  | .mk name type fallback =>
    (likewise_lowerNode type).bind fun _ _ ht => (likewise_lowerOption fallback).bind fun _ _ hf =>
      .pure ((ht.append hf).mono fun _ h => congrArg₂ (Tree.Parameter.mk name) h.1 h.2)

theorem likewise_lowerParameters : (ps : List (Tree.Parameter (Option Span))) → Likewise
    (fun ps ps' => Places (fun ν => mapParameters (Mark.renumber ν) ps = ps') (preorderParameters ps)
      (preorderParameters ps')) (lowerParameters ps) (lowerParameters ps)
  | [] => .pure (.nil fun _ => rfl)
  | p :: rest =>
    (likewise_lowerParameter p).bind fun _ _ hp => (likewise_lowerParameters rest).bind fun _ _ hps =>
      .pure ((hp.append hps).mono fun _ h => congrArg₂ List.cons h.1 h.2)

end

theorem lowerNodes_append (xs ys : List (Node (Option Span))) : lowerNodes (xs ++ ys) = (do
    let xs ← lowerNodes xs
    return xs ++ (← lowerNodes ys)) := by
  induction xs with
  | nil => simp [lowerNodes]
  | cons x xs ih => simp [lowerNodes, ih]

theorem bindings_chain (h : chain first rest k = .ok e k') :
    e.bindings = bindingsOf (first :: rest) := by
  induction rest generalizing first k k' e with
  | nil =>
    obtain ⟨rfl, -⟩ := of_pure h
    simp [bindingsOf]
  | cons second rest ih =>
    obtain ⟨right, j, hright, h⟩ := of_bind h
    obtain ⟨note, j', -, hpure⟩ := of_bind h
    obtain ⟨rfl, -⟩ := of_pure hpure
    simp [Node.bindings, bindingsOf, ih hright]

theorem bindings_group {span : Span} (h : group span items k = .ok e k') :
    e.bindings = bindingsOf items := by
  match items with
  | [] => cases h
  | [only] =>
    obtain ⟨rfl, -⟩ := of_pure h
    simp [bindingsOf]
  | first :: second :: rest =>
    obtain ⟨right, j, hright, h⟩ := of_bind h
    obtain ⟨note, j', -, hpure⟩ := of_bind h
    obtain ⟨rfl, -⟩ := of_pure hpure
    simp [Node.bindings, bindingsOf, bindings_chain hright]

theorem bindings_of_lowerNode {x : Expr} {e : Node (Option Span)}
    (he : ∀ note items, e ≠ .sequence note items) (hp : lowerNode e k = .ok x k') : x.bindings = [x] := by
  have hshape := ((lowers_node e).of_ok hp).2.2.2
  cases e with
  | sequence note items => exact absurd rfl (he note items)
  | _ =>
    cases x with
    | sequence => cases hshape
    | _ => rfl

theorem likewise_bindingsOf (es : List (Node (Option Span))) :
    Likewise (fun xs => List.Forall₂ Renumbered (bindingsOf xs)) (lowerNodes es)
      (lowerNodes (bindingsOf es)) := by
  induction es using bindings_induction with
  | nil => exact .pure .nil
  | group note items rest hitems hrest =>
    rw [bindingsOf, lowerNodes_append]
    have hgroup : Likewise (fun x => List.Forall₂ Renumbered x.bindings)
        (lowerNode (.sequence note items)) (lowerNodes (bindingsOf items)) := by
      intro k x k' hp j
      obtain ⟨es, k₁, hes, hgroup⟩ := of_bind hp
      obtain ⟨xs, j', hxs, hsame⟩ := hitems hes j
      refine ⟨xs, j', hxs, ?_⟩
      show List.Forall₂ Renumbered x.bindings xs
      rwa [bindings_group hgroup]
    exact hgroup.bind fun x xs hx => hrest.bind fun ys zs hys => .pure (List.rel_append hx hys)
  | cons e rest hne he ih =>
    rw [bindingsOf, he]
    have hone : Likewise (fun x y => x.bindings = [x] ∧ Renumbered x y) (lowerNode e) (lowerNode e) := by
      intro k x k' hp j
      obtain ⟨y, j', hy, hsame⟩ := likewise_lowerNode _ hp j
      exact ⟨y, j', hy, bindings_of_lowerNode hne hp, hsame⟩
    refine hone.bind fun x y hxy => ih.bind fun xs ys hrest => .pure ?_
    rw [bindingsOf, hxy.1]
    exact .cons hxy.2 hrest

theorem lower_bindings (h : d.lower k = .ok root k') (j : Nat) :
    ∃ xs j', lowerNodes (bindingsOf d.bindings) j = .ok xs j' ∧
      List.Forall₂ Renumbered root.bindings xs := by
  obtain ⟨items, k₁, hitems, h⟩ := of_bind h
  cases items with
  | nil => cases h
  | cons first rest =>
    rw [bindings_chain h]
    exact likewise_bindingsOf d.bindings hitems j

theorem bindingsOf_eq_self {xs : List Expr} (h : ∀ x ∈ xs, ∀ note items, x ≠ .sequence note items) :
    bindingsOf xs = xs := by
  rw [bindingsOf_eq_flatMap, ← List.flatMap_singleton' xs, List.flatMap_assoc]
  refine List.flatMap_congr fun x hx => ?_
  cases x with
  | sequence note items => exact absurd rfl (h _ hx note items)
  | _ => rfl

/-- Binding a document is building the module of its bindings, numbered in one go. -/
theorem bind_eq_build (h : d.lower k = .ok root k') (name : String) : ∃ xs j t c,
    lowerNodes (bindingsOf d.bindings) 0 = .ok xs j ∧ bindingsOf xs = xs ∧
      Build.build (.sequence default xs) (.initial name) = .ok t c ∧ bind d name = .ok (.ofContext c) := by
  obtain ⟨hfilled, hne, -⟩ := erase_lower h
  obtain ⟨root, k', h⟩ := exists_lower_of_isFilled hfilled hne 0
  obtain ⟨xs, j, hxs, hsame⟩ := lower_bindings h 0
  obtain ⟨-, -, hordered, -⟩ := (lowers_nodes _).of_ok hxs
  obtain ⟨ν, hν⟩ := exists_renumbering hsame (count_lower_le_one h) hordered.count_le_one
  have hself : bindingsOf xs = xs := by
    apply bindingsOf_eq_self
    rw [hν]
    intro x hx note items
    obtain ⟨y, hy, rfl⟩ := List.mem_map.mp hx
    have hne := ne_sequence_of_mem_bindingsOf [root] (List.mem_append_left _ hy)
    cases y with
    | sequence note items => exact absurd rfl (hne note items)
    | _ => nofun
  have hbindings : (Node.sequence default xs).bindings =
    root.bindings.map (Renumbering.renode ν.toEmbedding).expr := hself.trans hν
  obtain ⟨t, c, c', hbuild, hbuild', hmirrored⟩ :=
    Build.build_renumbered name hbindings (count_lower_le_one h)
  refine ⟨xs, j, t, c', hxs, hself, hbuild', ?_⟩
  simp only [bind, h, Context.build, Context.after, hbuild, hmirrored.report]

end Document

end Binder
