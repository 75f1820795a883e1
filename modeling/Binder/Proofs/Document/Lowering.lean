import Binder.Document.Lower
import Binder.Proofs.Tree.Erasure
import Mathlib.Algebra.Order.Ring.Int

/-! What lowering costs and where it fails. Documents are lowered one after the other with numbers from
one supply. A document fails at its first sequence without items, or for lack of bindings; any other one
gets a number for each node that is no sequence and for each pair that its sequences are made of, and
every node gets its number after the nodes below it. The numbered tree has a shape that can be told from
the document alone. -/
namespace Binder.Tree

variable {α : Type}

/-- Each of the nodes has a greater number than the nodes right below it. -/
def Descends (nodes : List Expr) : Prop := ∀ x ∈ nodes, ∀ c ∈ x.children, c.id.index < x.id.index

/-- The nodes have the numbers from `k` on and below `k'`, greater ones above smaller ones. -/
structure Ordered (k k' : Nat) (nodes : List Expr) : Prop extends Numbered k k' nodes where
  descends : Descends nodes

namespace Ordered

variable {k k' k'' : Nat} {xs ys : List Expr}

theorem nil (k : Nat) : Ordered k k [] := ⟨.nil k, nofun⟩

theorem append (h : Ordered k k' xs) (h' : Ordered k' k'' ys) : Ordered k k'' (xs ++ ys) where
  toNumbered := h.toNumbered.append h'.toNumbered
  descends := List.forall_mem_append.mpr ⟨h.descends, h'.descends⟩

theorem perm (h : Ordered k k' xs) (hp : xs.Perm ys) : Ordered k k' ys where
  toNumbered := h.toNumbered.perm hp
  descends x hx := h.descends x (hp.mem_iff.mpr hx)

theorem cons {e : Expr} (h : Ordered k k' xs) (he : e.id = ⟨k'⟩) (hchildren : e.children ⊆ xs) :
    Ordered k (k' + 1) (e :: xs) where
  toNumbered := h.toNumbered.cons he
  descends := by
    refine List.forall_mem_cons.mpr ⟨fun c hc => ?_, h.descends⟩
    rw [he]
    exact (h.range c (hchildren hc)).2

end Ordered

/-- The numbers that a node of a document takes for itself: a sequence takes one for each pair that it
becomes. -/
def Node.price : Node α → Nat
  | .sequence _ items => items.length - 1
  | _ => 1

def price (nodes : List (Node α)) : Nat := (nodes.map Node.price).sum

@[simp] theorem price_cons (e : Node α) (nodes : List (Node α)) :
    price (e :: nodes) = e.price + price nodes := by
  simp [price]

@[simp] theorem price_append (xs ys : List (Node α)) : price (xs ++ ys) = price xs + price ys := by
  simp [price]

/-- Where a sequence without items stands. -/
def Node.vacancy? : Node (Option Span) → Option Span
  | .sequence span [] => some (span.getD .zero)
  | _ => none

def firstVacancy? (nodes : List (Node (Option Span))) : Option Span := nodes.findSome? Node.vacancy?

@[simp] theorem firstVacancy?_nil : firstVacancy? [] = none := rfl

@[simp] theorem firstVacancy?_cons (e : Node (Option Span)) (nodes : List (Node (Option Span))) :
    firstVacancy? (e :: nodes) = e.vacancy?.or (firstVacancy? nodes) := by
  simp only [firstVacancy?, List.findSome?_cons]
  cases e.vacancy? <;> rfl

@[simp] theorem firstVacancy?_append (xs ys : List (Node (Option Span))) :
    firstVacancy? (xs ++ ys) = (firstVacancy? xs).or (firstVacancy? ys) :=
  List.findSome?_append

theorem firstVacancy?_eq_none_iff {nodes : List (Node (Option Span))} :
    firstVacancy? nodes = none ↔ ∀ x ∈ nodes, x.isFilled = true := by
  rw [firstVacancy?, List.findSome?_eq_none_iff]
  refine forall₂_congr fun x _ => ?_
  rcases x with _ | _ | _ | _ | _ | ⟨_, _ | _⟩ | _ | _ | _ | _ | _ <;> simp [Node.vacancy?, Node.isFilled]

end Binder.Tree

namespace Binder.Document

open Binder.Tree

/-- The tree of a document whose nodes are numbered from zero on. -/
def root (d : Document) : Expr :=
  match d.lower 0 with
  | .ok root _ => root
  | .error _ _ => .sequence ⟨⟨0⟩, .zero⟩ []

variable {k k' k₀ : Nat} {d d' : Document} {root : Expr} {span : Span} {ds : List Document}
  {l : Lowering}

theorem exists_chain {first : Expr} {rest before : List Expr}
    (h : Ordered k₀ k (before ++ preorderOf (first :: rest))) :
    ∃ e, chain first rest k = .ok e (k + rest.length) ∧
      Ordered k₀ (k + rest.length) (before ++ e.preorder) ∧
      e.erase = paired first.erase (eraseAll rest) := by
  induction rest generalizing first before with
  | nil => exact ⟨first, rfl, by simpa [preorderOf] using h, rfl⟩
  | cons second rest ih =>
    rw [preorderOf, ← List.append_assoc] at h
    obtain ⟨right, hright, hordered, herase⟩ := ih h
    refine ⟨.sequence ⟨⟨k + rest.length⟩, .zero⟩ [first, right], ?_, ?_, ?_⟩
    · simp only [chain, Bind.bind, EStateM.bind, hright]
      rfl
    · have hnode := hordered.cons (e := .sequence ⟨⟨k + rest.length⟩, .zero⟩ [first, right]) rfl (by
        simp [Node.children, mem_preorder_self])
      refine hnode.perm ?_
      simpa [Node.preorder, preorderOf] using List.perm_middle.symm
    · simp [Node.erase, eraseAll, paired, herase]

theorem exists_group (span : Span) {items : List Expr} (hne : items ≠ [])
    (h : Ordered k₀ k (preorderOf items)) :
    ∃ e, group span items k = .ok e (k + (items.length - 1)) ∧
      Ordered k₀ (k + (items.length - 1)) e.preorder ∧ e.erase = grouped (eraseAll items) := by
  match items with
  | [] => exact absurd rfl hne
  | [only] => exact ⟨only, rfl, by simpa [preorderOf] using h, rfl⟩
  | first :: second :: rest =>
    obtain ⟨right, hright, hordered, herase⟩ := exists_chain h
    refine ⟨.sequence ⟨⟨k + rest.length⟩, span⟩ [first, right], ?_, ?_, ?_⟩
    · simp only [group, Bind.bind, EStateM.bind, hright]
      rfl
    · have hnode := hordered.cons (e := .sequence ⟨⟨k + rest.length⟩, span⟩ [first, right]) rfl (by
        simp [Node.children, mem_preorder_self])
      simpa [Node.preorder, preorderOf, Nat.add_assoc] using hnode
    · simp [Node.erase, eraseAll, grouped, paired, herase]

namespace Numbering

variable {β γ δ ε ζ η : Type} {p : Numbering β} {q : Numbering γ} {nodes : β → List Expr}
  {nodes' : γ → List Expr} {nodes'' : δ → List Expr} {erase : β → ε} {erase' : γ → ζ}
  {erase'' : δ → η} {source source' : List (Node (Option Span))} {x : ε} {y : ζ} {z : η}
  {node : Node (Option Span)} {e : Node Unit} {span : Span} {b : β}

theorem of_bind {x : Numbering β} {f : β → Numbering γ} {b : γ}
    (h : (x >>= f) k = .ok b k') : ∃ a j, x k = .ok a j ∧ f a j = .ok b k' := by
  simp only [bind, EStateM.bind] at h
  split at h
  next a j hx => exact ⟨a, j, hx, h⟩
  next => cases h

theorem of_pure {a : β} (h : (pure a : Numbering β) k = .ok b k') :
    a = b ∧ k = k' := by
  cases h
  exact ⟨rfl, rfl⟩

/-- From whatever number it starts, a computation fails at the first empty sequence of the source, or
it takes the numbers that the nodes of the source cost, and what it makes of them is `x` up to notes. -/
def Lowers (p : Numbering β) (nodes : β → List Expr) (erase : β → ε)
    (source : List (Node (Option Span))) (x : ε) : Prop :=
  ∀ k, match p k with
    | .ok b k' => firstVacancy? source = none ∧ k' = k + price source ∧ Ordered k k' (nodes b) ∧
        erase b = x
    | .error e k' => (firstVacancy? source).map LoweringError.emptySequence = some e ∧ k ≤ k'

theorem Lowers.pure (hnodes : nodes b = []) (hb : erase b = x) :
    Lowers (pure b) nodes erase [] x :=
  fun k => ⟨rfl, rfl, hnodes ▸ .nil k, hb⟩

section

variable (hp : Lowers p nodes erase source x)
include hp

theorem Lowers.map {f : β → γ} (hf : ∀ b, erase b = x → erase' (f b) = y)
    (hnodes : ∀ b, nodes' (f b) = nodes b := by exact fun _ => rfl) :
    Lowers (do return f (← p)) nodes' erase' source y := by
  intro k
  have hk := hp k
  simp only [Bind.bind, EStateM.bind]
  cases hresult : p k with
  | error e k' => simpa only [hresult] using hk
  | ok b k' =>
    simp only [hresult] at hk
    exact ⟨hk.1, hk.2.1, (hnodes b).symm ▸ hk.2.2.1, hf b hk.2.2.2⟩

theorem Lowers.both {f : β → γ → δ} (hq : Lowers q nodes' erase' source' y)
    (hf : ∀ b c, erase b = x → erase' c = y → erase'' (f b c) = z)
    (hnodes : ∀ b c, nodes'' (f b c) = nodes b ++ nodes' c := by exact fun _ _ => rfl) :
    Lowers (do let b ← p; return f b (← q)) nodes'' erase'' (source ++ source') z := by
  intro k
  have hk := hp k
  simp only [Bind.bind, EStateM.bind, firstVacancy?_append, price_append]
  cases hresult : p k with
  | error e k' =>
    simp only [hresult] at hk
    obtain ⟨span, hspan, he⟩ := Option.map_eq_some_iff.mp hk.1
    exact ⟨by rw [hspan]; exact congrArg some he, hk.2⟩
  | ok b j =>
    simp only [hresult] at hk
    obtain ⟨hnone, rfl, hordered, hb⟩ := hk
    have hj := hq (k + price source)
    rw [hnone]
    dsimp only
    cases hresult' : q (k + price source) with
    | error e k' =>
      simp only [hresult'] at hj
      exact ⟨hj.1, Nat.le_trans (Nat.le_add_right _ _) hj.2⟩
    | ok c k' =>
      simp only [hresult'] at hj
      obtain ⟨hnone', rfl, hordered', hc⟩ := hj
      exact ⟨hnone', Nat.add_assoc .., (hnodes b c).symm ▸ hordered.append hordered', hf b c hb hc⟩

theorem Lowers.mark {make : β → Mark → Expr} (hmake : ∀ b note, erase b = x → (make b note).erase = e)
    (hnode : node.price = 1 ∧ node.vacancy? = none := by exact ⟨rfl, rfl⟩)
    (hid : ∀ b note, (make b note).id = note.id := by exact fun _ _ => rfl)
    (hpre : ∀ b note, (make b note).preorder = make b note :: nodes b := by exact fun _ _ => rfl) :
    Lowers (do let b ← p; return make b (← Document.mark span)) Node.preorder Node.erase
      (node :: source) e := by
  intro k
  have hk := hp k
  simp only [Bind.bind, EStateM.bind, firstVacancy?_cons, price_cons, hnode.1, hnode.2, Option.none_or]
  cases hresult : p k with
  | error e k' => simpa only [hresult] using hk
  | ok b k' =>
    simp only [hresult] at hk
    obtain ⟨hnone, rfl, hordered, hb⟩ := hk
    have hnodes := (List.cons.inj ((preorder_eq _).symm.trans
      (hpre b ⟨⟨k + price source⟩, span⟩))).2
    refine ⟨hnone, ?_, ?_, hmake b _ hb⟩
    · rw [Nat.add_comm 1, ← Nat.add_assoc]
    · rw [hpre]
      exact hordered.cons (hid ..) (hnodes ▸ subset_preorderOf _)

theorem Lowers.markBoth {make : β → γ → Mark → Expr} (hq : Lowers q nodes' erase' source' y)
    (hmake : ∀ b c note, erase b = x → erase' c = y → (make b c note).erase = e)
    (hnode : node.price = 1 ∧ node.vacancy? = none := by exact ⟨rfl, rfl⟩)
    (hid : ∀ b c note, (make b c note).id = note.id := by exact fun _ _ _ => rfl)
    (hpre : ∀ b c note, (make b c note).preorder = make b c note :: (nodes b ++ nodes' c) := by
      exact fun _ _ _ => rfl) :
    Lowers (do let b ← p; let c ← q; return make b c (← Document.mark span)) Node.preorder Node.erase
      (node :: (source ++ source')) e := by
  have hboth : Lowers (do let b ← p; return (b, ← q)) (fun bc => nodes bc.1 ++ nodes' bc.2)
      (fun bc => (erase bc.1, erase' bc.2)) (source ++ source') (x, y) :=
    hp.both hq fun b c hb hc => by rw [hb, hc]
  have hmark : Lowers (do
      let bc ← (do let b ← p; return (b, ← q) : Numbering (β × γ))
      return make bc.1 bc.2 (← Document.mark span)) Node.preorder Node.erase
      (node :: (source ++ source')) e :=
    hboth.mark (fun bc note h => hmake _ _ _ (Prod.mk.inj h).1 (Prod.mk.inj h).2) hnode
      (fun _ _ => hid ..) fun _ _ => hpre ..
  simpa only [bind_assoc, pure_bind] using hmark

end

theorem Lowers.leaf {make : Mark → Expr} (hmake : ∀ note, (make note).erase = e)
    (hnode : node.price = 1 ∧ node.vacancy? = none := by exact ⟨rfl, rfl⟩)
    (hid : ∀ note, (make note).id = note.id := by exact fun _ => rfl)
    (hpre : ∀ note, (make note).preorder = [make note] := by exact fun _ => rfl) :
    Lowers (do return make (← Document.mark span)) Node.preorder Node.erase [node] e := by
  have hpure : Lowers (Pure.pure ()) (fun _ => []) id [] () := .pure rfl rfl
  exact hpure.mark (fun _ note _ => hmake note) hnode (fun _ => hid) fun _ => hpre

theorem Lowers.of_ok (h : Lowers p nodes erase source x) (hp : p k = .ok b k') :
    firstVacancy? source = none ∧ k' = k + price source ∧ Ordered k k' (nodes b) ∧ erase b = x := by
  have hk := h k
  rwa [hp] at hk

theorem Lowers.of_filled (h : Lowers p nodes erase source x) (hsource : firstVacancy? source = none)
    (k : Nat) : ∃ b, p k = .ok b (k + price source) ∧ Ordered k (k + price source) (nodes b) ∧
      erase b = x := by
  have hk := h k
  split at hk
  next b k' hp =>
    obtain ⟨-, rfl, hb⟩ := hk
    exact ⟨b, hp, hb⟩
  next =>
    rw [hsource] at hk
    cases hk.1

theorem Lowers.of_vacant (h : Lowers p nodes erase source x)
    (hsource : firstVacancy? source = some span) (k : Nat) :
    ∃ k', p k = .error (.emptySequence span) k' ∧ k ≤ k' := by
  have hk := h k
  split at hk
  next =>
    rw [hsource] at hk
    cases hk.1
  next e k' hp =>
    rw [hsource] at hk
    cases hk.1
    exact ⟨k', hp, hk.2⟩

end Numbering

open Binder.Document.Numbering

theorem lowers_sequence (note : Option Span) {items : List (Node (Option Span))}
    (h : Lowers (lowerNodes items) preorderOf eraseAll (preorderOf items) (shapes items)) :
    Lowers (lowerNode (.sequence note items)) Node.preorder Node.erase
      (.sequence note items :: preorderOf items) (grouped (shapes items)) := by
  intro k
  have hk := h k
  simp only [lowerNode, Bind.bind, EStateM.bind, firstVacancy?_cons, price_cons]
  cases hresult : lowerNodes items k with
  | error e k' =>
    simp only [hresult] at hk
    cases items with
    | nil => cases hk.1
    | cons item items => exact hk
  | ok es j =>
    simp only [hresult] at hk
    obtain ⟨hnone, rfl, hordered, herase⟩ := hk
    have hlength : es.length = items.length := by
      simpa [eraseAll_eq, shapes_eq] using congrArg List.length herase
    cases items with
    | nil =>
      rw [List.length_eq_zero_iff.mp hlength]
      exact ⟨rfl, Nat.le_refl k⟩
    | cons item items =>
      obtain ⟨e, hgroup, hordered, he⟩ := exists_group (note.getD .zero)
        (List.ne_nil_of_length_eq_add_one hlength) hordered
      simp only [hgroup]
      refine ⟨hnone, ?_, hordered, herase ▸ he⟩
      rw [hlength, Nat.add_assoc, Nat.add_comm (price _)]
      rfl

mutual

/-- What numbering makes of a tree, by the nodes of the tree. -/
theorem lowers_node : (node : Node (Option Span)) →
    Lowers (lowerNode node) Node.preorder Node.erase node.preorder node.shape
  | .literal span value => .leaf fun _ => rfl
  | .ident span name => .leaf fun _ => rfl
  | .selection span target member =>
    (lowers_node target).mark fun _ _ h => congrArg (Node.selection () · member) h
  | .call span target arguments =>
    (lowers_node target).markBoth (lowers_nodes arguments) fun _ _ _ => congrArg₂ (Node.call ())
  | .namedArgument span name value =>
    (lowers_node value).mark fun _ _ => congrArg (Node.namedArgument () name)
  | .sequence span items => lowers_sequence span (lowers_nodes items)
  | .definition span mutable name ascription value =>
    (lowers_option ascription).markBoth (lowers_option value) fun _ _ _ =>
      congrArg₂ (Node.definition () mutable name)
  | .typeLiteral span members =>
    (lowers_members members).mark fun _ _ => congrArg (Node.typeLiteral ())
  | .arrayType span element size =>
    (lowers_node element).markBoth (lowers_option size) fun _ _ _ => congrArg₂ (Node.arrayType ())
  | .referenceType span referent =>
    (lowers_node referent).mark fun _ _ => congrArg (Node.referenceType ())
  | .extension span target members =>
    (lowers_node target).markBoth (lowers_members members) fun _ _ _ => congrArg₂ (Node.extension ())

theorem lowers_nodes : (nodes : List (Node (Option Span))) →
    Lowers (lowerNodes nodes) preorderOf eraseAll (preorderOf nodes) (shapes nodes)
  | [] => .pure rfl rfl
  | node :: rest => (lowers_node node).both (lowers_nodes rest) fun _ _ => congrArg₂ List.cons

theorem lowers_option : (node : Option (Node (Option Span))) →
    Lowers (lowerOption node) preorderOption eraseOption (preorderOption node) (shapeOption node)
  | none => .pure rfl rfl
  | some node => (lowers_node node).map fun _ => congrArg some

theorem lowers_member : (member : Member (Option Span)) →
    Lowers (lowerMember member) Member.preorder Member.erase member.preorder member.shape
  | .field name type mutable => (lowers_node type).map fun _ h => congrArg (Member.field name · mutable) h
  | .signature parameters result =>
    (lowers_parameters parameters).both (lowers_node result) fun _ _ => congrArg₂ Member.signature
  | .nested name value => (lowers_node value).map fun _ => congrArg (Member.nested name)

theorem lowers_members : (members : List (Member (Option Span))) →
    Lowers (lowerMembers members) preorderMembers eraseMembers (preorderMembers members)
      (memberShapes members)
  | [] => .pure rfl rfl
  | member :: rest =>
    (lowers_member member).both (lowers_members rest) fun _ _ => congrArg₂ List.cons

theorem lowers_parameter : (parameter : Parameter (Option Span)) →
    Lowers (lowerParameter parameter) Parameter.preorder Parameter.erase parameter.preorder
      parameter.shape
  | .mk name type fallback =>
    (lowers_node type).both (lowers_option fallback) fun _ _ => congrArg₂ (Parameter.mk name)

theorem lowers_parameters : (parameters : List (Parameter (Option Span))) →
    Lowers (lowerParameters parameters) preorderParameters eraseParameters
      (preorderParameters parameters) (parameterShapes parameters)
  | [] => .pure rfl rfl
  | parameter :: rest =>
    (lowers_parameter parameter).both (lowers_parameters rest) fun _ _ => congrArg₂ List.cons

end

theorem lower_vacant (h : firstVacancy? (preorderOf d.bindings) = some span) (k : Nat) :
    ∃ k', d.lower k = .error (.emptySequence span) k' ∧ k ≤ k' := by
  obtain ⟨k', hnodes, hle⟩ := (lowers_nodes d.bindings).of_vacant h k
  refine ⟨k', ?_, hle⟩
  simp only [lower, Bind.bind, EStateM.bind, hnodes]

theorem lower_filled (hne : d.bindings ≠ []) (h : firstVacancy? (preorderOf d.bindings) = none)
    (k : Nat) : ∃ root k', d.lower k = .ok root k' ∧
      k' = k + (price (preorderOf d.bindings) + (d.bindings.length - 1)) ∧
      Ordered k k' root.preorder ∧ root.erase = grouped (shapes d.bindings) := by
  obtain ⟨es, hes, hordered, herase⟩ := (lowers_nodes d.bindings).of_filled h k
  rw [← herase]
  have hlength : es.length = d.bindings.length := by
    simpa [eraseAll_eq, shapes_eq] using congrArg List.length herase
  cases es with
  | nil => exact absurd (List.length_eq_zero_iff.mp hlength.symm) hne
  | cons first rest =>
    obtain ⟨root, hroot, hordered, herase⟩ := @exists_chain _ _ first rest [] hordered
    refine ⟨root, _, ?_, ?_, hordered, herase⟩
    · simp only [lower, Bind.bind, EStateM.bind, hes, hroot]
    · rw [← hlength, List.length_cons, Nat.add_sub_cancel, Nat.add_assoc]

theorem lower_inv (h : d.lower k = .ok root k') :
    d.bindings ≠ [] ∧ firstVacancy? (preorderOf d.bindings) = none ∧ Ordered k k' root.preorder ∧
      root.erase = grouped (shapes d.bindings) := by
  have hne : d.bindings ≠ [] := by
    intro hnil
    simp only [lower, hnil] at h
    cases h
  cases hvacancy : firstVacancy? (preorderOf d.bindings) with
  | some span =>
    obtain ⟨j, hj, -⟩ := lower_vacant hvacancy k
    rw [hj] at h
    cases h
  | none =>
    obtain ⟨root', j, hj, -, hordered, herase⟩ := lower_filled hne hvacancy k
    rw [hj] at h
    cases h
    exact ⟨hne, rfl, hordered, herase⟩

theorem count_lower_le_one (h : d.lower k = .ok root k') (n : NodeId) :
    count n (preorderOf root.bindings) ≤ 1 := by
  have hle := count_bindingsOf_le n [root]
  simp only [bindingsOf, preorderOf, List.append_nil] at hle
  exact Nat.le_trans hle ((lower_inv h).2.2.1.count_le_one n)

/-- A document that can be numbered has bindings and no empty sequence; the bindings of its tree
have the shapes of those that were written. -/
theorem erase_lower (h : d.lower k = .ok root k') :
    (preorderOf d.bindings).all Node.isFilled = true ∧ d.bindings ≠ [] ∧
      root.bindings.map Node.erase = (bindingsOf d.bindings).map Node.shape := by
  obtain ⟨hne, hvacancy, -, herase⟩ := lower_inv h
  refine ⟨List.all_eq_true.mpr (firstVacancy?_eq_none_iff.mp hvacancy), hne, ?_⟩
  rw [← bindings_erase, herase, bindings_grouped, bindingsOf_shapes]

theorem exists_lower_of_isFilled (hok : (preorderOf d.bindings).all Node.isFilled = true)
    (hne : d.bindings ≠ []) (j : Nat) : ∃ root j', d.lower j = .ok root j' := by
  obtain ⟨root, j', hlower, -⟩ :=
    lower_filled hne (firstVacancy?_eq_none_iff.mpr (List.all_eq_true.mp hok)) j
  exact ⟨root, j', hlower⟩

theorem exists_lower (h : d.lower k = .ok root k')
    (hperm : d'.bindings.Perm d.bindings) (j : Nat) : ∃ root' j', d'.lower j = .ok root' j' := by
  obtain ⟨hok, hne, -⟩ := erase_lower h
  have hok' : (preorderOf d'.bindings).all Node.isFilled = true := by
    rw [preorderOf_eq_flatMap] at hok ⊢
    rw [(hperm.flatMap_right _).all_eq, hok]
  refine exists_lower_of_isFilled hok' (fun hnil => hne ?_) j
  rw [hnil] at hperm
  exact hperm.symm.eq_nil

/-- Permuting the bindings of a document permutes the bindings of its tree. -/
theorem bindings_perm {root' : Expr} {j j' : Nat} (h : d.lower k = .ok root k')
    (h' : d'.lower j = .ok root' j')
    (hperm : (bindingsOf d'.bindings).Perm (bindingsOf d.bindings)) :
    (root'.bindings.map Node.erase).Perm (root.bindings.map Node.erase) := by
  rw [(erase_lower h).2.2, (erase_lower h').2.2]
  exact hperm.map _

theorem filter_isDeclaration (h : d.lower k = .ok root k') :
    (root.bindings.map Node.erase).filter Node.isDeclaration =
      ((bindingsOf d.bindings).filter Node.declares).map Node.shape := by
  rw [(erase_lower h).2.2, List.filter_map]
  congr 1
  apply List.filter_congr
  intro b hb
  exact isDeclaration_shape b (ne_sequence_of_mem_bindingsOf _ hb)

theorem any_isSized_lower (h : d.lower k = .ok root k') :
    (preorderOf root.bindings).any Node.isSized = (preorderOf d.bindings).any Node.isSized := by
  have hbindings := (erase_lower h).2.2
  rw [← shapes_eq, ← eraseAll_eq] at hbindings
  rw [← any_isSized_bindingsOf d.bindings, ← any_isSized_shapes (bindingsOf d.bindings),
    ← hbindings, preorderOf_erase, List.any_map]
  congr 1
  funext e
  exact (isSized_erase e).symm

/-- The outcome of lowering a document, with the next number before and after. -/
structure Lowering where
  document : Document
  start : Nat
  outcome : Except LoweringError Expr
  stop : Nat

def lowering (k : Nat) (d : Document) : Lowering :=
  match d.lower k with
  | .ok root k' => ⟨d, k, .ok root, k'⟩
  | .error e k' => ⟨d, k, .error e, k'⟩

/-- Lowers documents one after the other, each with the numbers that are left by those before. -/
def lowerings (k : Nat) : List Document → List Lowering
  | [] => []
  | d :: rest => lowering k d :: lowerings (lowering k d).stop rest

namespace Lowering

def nodes (l : Lowering) : List Expr :=
  match l.outcome with
  | .ok root => root.preorder
  | .error _ => []

/-- The outcome is the one that the document calls for, and the numbers are used as they should be. -/
structure Sound (l : Lowering) : Prop where
  succeeds : (∃ root, l.outcome = .ok root) ↔
    l.document.bindings ≠ [] ∧ ∀ x ∈ preorderOf l.document.bindings, x.isFilled = true
  fails : ∀ e, l.outcome = .error e ↔ l.document.bindings = [] ∧ e = .emptyDocument ∨
    ∃ span, firstVacancy? (preorderOf l.document.bindings) = some span ∧ e = .emptySequence span
  numbered : Numbered l.start l.stop l.nodes
  descends : Descends l.nodes
  cost : ∀ root, l.outcome = .ok root → l.stop =
    l.start + (price (preorderOf l.document.bindings) + (l.document.bindings.length - 1))

end Lowering

theorem sound_lowering_nil (h : d.bindings = []) : (lowering k d).Sound := by
  have hlower : lowering k d = ⟨d, k, .error .emptyDocument, k⟩ := by
    simp only [lowering, lower, h]
    rfl
  rw [hlower]
  exact {
    succeeds := by simp [h]
    fails := by simp [h, preorderOf, eq_comm]
    numbered := .nil k
    descends := nofun
    cost := nofun }

theorem sound_lowering_vacant (h : firstVacancy? (preorderOf d.bindings) = some span) :
    (lowering k d).Sound := by
  obtain ⟨k', hk', hle⟩ := lower_vacant h k
  have hne : d.bindings ≠ [] := by
    intro hnil
    rw [hnil] at h
    cases h
  have hvacant : ¬∀ x ∈ preorderOf d.bindings, x.isFilled = true := by
    rw [← firstVacancy?_eq_none_iff, h]
    nofun
  rw [lowering, hk']
  exact {
    succeeds := ⟨nofun, fun hfilled => absurd hfilled.2 hvacant⟩
    fails := by simp [hne, h, eq_comm]
    numbered := ⟨hle, List.nodup_nil, List.forall_mem_nil _⟩
    descends := nofun
    cost := nofun }

theorem sound_lowering_filled (hne : d.bindings ≠ [])
    (h : firstVacancy? (preorderOf d.bindings) = none) : (lowering k d).Sound := by
  obtain ⟨root, k', hk', hcost, hordered, -⟩ := lower_filled hne h k
  rw [lowering, hk']
  exact {
    succeeds := ⟨fun _ => ⟨hne, firstVacancy?_eq_none_iff.mp h⟩, fun _ => ⟨root, rfl⟩⟩
    fails := by simp [hne, h]
    numbered := hordered.toNumbered
    descends := hordered.descends
    cost := fun _ _ => hcost }

theorem sound_lowering (k : Nat) (d : Document) : (lowering k d).Sound := by
  by_cases hne : d.bindings = []
  · exact sound_lowering_nil hne
  · cases h : firstVacancy? (preorderOf d.bindings) with
    | none => exact sound_lowering_filled hne h
    | some span => exact sound_lowering_vacant h

@[simp] theorem document_lowering (k : Nat) (d : Document) : (lowering k d).document = d := by
  unfold lowering
  split <;> rfl

@[simp] theorem start_lowering (k : Nat) (d : Document) : (lowering k d).start = k := by
  unfold lowering
  split <;> rfl

theorem numbered_lowerings (k : Nat) (ds : List Document) :
    ∃ k', Numbered k k' ((lowerings k ds).flatMap Lowering.nodes) := by
  induction ds generalizing k with
  | nil => exact ⟨k, .nil k⟩
  | cons d rest ih =>
    have hhead := (sound_lowering k d).numbered
    rw [start_lowering] at hhead
    obtain ⟨k', hrest⟩ := ih (lowering k d).stop
    exact ⟨k', hhead.append hrest⟩

theorem start_le_of_mem_lowerings (h : l ∈ lowerings k ds) :
    k ≤ l.start := by
  induction ds generalizing k with
  | nil => cases h
  | cons d rest ih =>
    rcases List.mem_cons.mp h with rfl | h
    · exact Nat.le_of_eq (start_lowering k d).symm
    · have hle := (sound_lowering k d).numbered.le
      rw [start_lowering] at hle
      exact Nat.le_trans hle (ih h)

theorem sound_of_mem_lowerings (h : l ∈ lowerings k ds) :
    l.Sound := by
  induction ds generalizing k with
  | nil => cases h
  | cons d rest ih =>
    rcases List.mem_cons.mp h with rfl | h
    · exact sound_lowering k d
    · exact ih h

/-- Each document of a series that is lowered with one supply of numbers succeeds if it has bindings and
no empty sequence, and fails with the first empty sequence or for lack of bindings otherwise. The numbers
that it takes come after all that were taken before it, all nodes of the trees have numbers of their own,
a node has a greater one than the nodes right below it, and a tree costs one number for each node that is
no sequence, one for each item of a sequence but the first, and one for each binding but the first. -/
theorem lowerings_sound (k : Nat) (ds : List Document) :
    (lowerings k ds).map Lowering.document = ds ∧
      (∀ l ∈ lowerings k ds, l.Sound) ∧
      (lowerings k ds).Pairwise (fun l l' => l.stop ≤ l'.start) ∧
      (((lowerings k ds).flatMap Lowering.nodes).map Node.id).Nodup := by
  refine ⟨?_, fun l hl => sound_of_mem_lowerings hl, ?_, ?_⟩
  · induction ds generalizing k with
    | nil => rfl
    | cons d rest ih => simp [lowerings, ih]
  · induction ds generalizing k with
    | nil => exact .nil
    | cons d rest ih => exact .cons (fun l hl => start_le_of_mem_lowerings hl) (ih _)
  · obtain ⟨k', h⟩ := numbered_lowerings k ds
    exact h.nodup

end Binder.Document
