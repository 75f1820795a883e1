import Binder.Tree.Walk
import Mathlib.Data.List.Flatten
import Mathlib.Data.List.Nodup
import Mathlib.Tactic.Common

/-! The nodes of a tree: the operands that a node is inferred with, how often a number occurs in a tree,
and lists of nodes whose numbers are all different and lie in a range. -/
namespace Binder.Tree

variable {α : Type} {k k' k'' : Nat} {xs ys : List Expr} {es : List (Node α)}

theorem preorderOf_eq_flatMap (es : List (Node α)) :
    preorderOf es = es.flatMap Node.preorder := by
  induction es with
  | nil => rfl
  | cons e es ih => rw [preorderOf, List.flatMap_cons, ih]

@[simp] theorem preorderOf_append (xs ys : List (Node α)) :
    preorderOf (xs ++ ys) = preorderOf xs ++ preorderOf ys := by
  simp only [preorderOf_eq_flatMap, List.flatMap_append]

theorem mem_preorderOf {x : Node α} :
    x ∈ preorderOf es ↔ ∃ e ∈ es, x ∈ e.preorder := by
  rw [preorderOf_eq_flatMap, List.mem_flatMap]

theorem mem_preorder_self (e : Node α) : e ∈ e.preorder := by
  cases e <;> simp [Node.preorder]

theorem subset_preorderOf (es : List (Node α)) : es ⊆ preorderOf es := fun e he =>
  mem_preorderOf.mpr ⟨e, he, mem_preorder_self e⟩

def Parameter.parts (p : Parameter α) : List (Node α) := p.type :: p.fallback.toList

def Member.parts : Member α → List (Node α)
  | .field _ type _ => [type]
  | .signature parameters result => parameters.flatMap Parameter.parts ++ [result]
  | .nested _ value => [value]

/-- The nodes right below a node, through members and parameters. -/
def Node.children : Node α → List (Node α)
  | .literal .. | .ident .. => []
  | .selection _ target _ => [target]
  | .call _ target arguments => target :: arguments
  | .namedArgument _ _ value => [value]
  | .sequence _ items => items
  | .definition _ _ _ ascription value => ascription.toList ++ value.toList
  | .typeLiteral _ members => members.flatMap Member.parts
  | .arrayType _ element size => element :: size.toList
  | .referenceType _ referent => [referent]
  | .extension _ target members => target :: members.flatMap Member.parts

theorem preorderOption_eq (e : Option (Node α)) : preorderOption e = preorderOf e.toList := by
  cases e <;> simp [preorderOption, preorderOf]

theorem preorderParameters_eq (ps : List (Parameter α)) :
    preorderParameters ps = preorderOf (ps.flatMap Parameter.parts) := by
  induction ps with
  | nil => rfl
  | cons p ps ih =>
    cases p
    simp [preorderParameters, Parameter.preorder, Parameter.parts, Parameter.type, Parameter.fallback,
      preorderOf, preorderOption_eq, ih]

theorem preorderMembers_eq (ms : List (Member α)) :
    preorderMembers ms = preorderOf (ms.flatMap Member.parts) := by
  induction ms with
  | nil => rfl
  | cons m ms ih =>
    cases m <;>
      simp [preorderMembers, Member.preorder, Member.parts, preorderOf, preorderParameters_eq, ih]

theorem preorder_eq (e : Node α) : e.preorder = e :: preorderOf e.children := by
  cases e <;>
    simp [Node.preorder, Node.children, preorderOf, preorderOption_eq, preorderMembers_eq]

theorem length_preorder_lt {x y : Node α} (h : y ∈ x.children) :
    y.preorder.length < x.preorder.length := by
  have hle := ((List.singleton_sublist.mpr h).flatMap Node.preorder).length_le
  rw [List.flatMap_singleton, ← preorderOf_eq_flatMap] at hle
  rw [preorder_eq x, List.length_cons]
  exact Nat.lt_succ_of_le hle

/-- What is proved of a node from the nodes right below it holds of all nodes. -/
theorem children_induction {P : Node α → Prop} (h : ∀ e, (∀ y ∈ e.children, P y) → P e)
    (e : Node α) : P e :=
  h e fun y hy =>
    have _hlt := length_preorder_lt hy
    children_induction h y
termination_by e.preorder.length

/-- The nodes directly below a node that are inferred with it. -/
def Node.operands : Node α → List (Node α)
  | .selection _ target _ => [target]
  | .call _ target arguments => target :: arguments
  | .namedArgument _ _ value => [value]
  | _ => []

mutual

def Node.reached : Node α → List (Node α)
  | .selection note target member => .selection note target member :: target.reached
  | .call note target arguments =>
      .call note target arguments :: target.reached ++ reachedOf arguments
  | .namedArgument note name value => .namedArgument note name value :: value.reached
  | node => [node]

def reachedOf : List (Node α) → List (Node α)
  | [] => []
  | node :: rest => node.reached ++ reachedOf rest

end

section Operands

variable {x y e : Node α}

theorem reachedOf_eq_flatMap (es : List (Node α)) : reachedOf es = es.flatMap Node.reached := by
  induction es with
  | nil => rfl
  | cons e es ih => rw [reachedOf, List.flatMap_cons, ih]

theorem mem_reachedOf : x ∈ reachedOf es ↔ ∃ e ∈ es, x ∈ e.reached := by
  rw [reachedOf_eq_flatMap, List.mem_flatMap]

theorem reached_eq (e : Node α) : e.reached = e :: e.operands.flatMap Node.reached := by
  cases e <;> simp [Node.reached, Node.operands, reachedOf_eq_flatMap]

theorem mem_reached_self (e : Node α) : e ∈ e.reached := by
  rw [reached_eq]
  exact List.mem_cons_self

theorem mem_reached_iff : x ∈ e.reached ↔ x = e ∨ ∃ y ∈ e.operands, x ∈ y.reached := by
  rw [reached_eq, List.mem_cons, List.mem_flatMap]

theorem operands_subset_children (e : Node α) : e.operands ⊆ e.children := by
  cases e <;> simp [Node.operands, Node.children]

theorem operands_induction {P : Node α → Prop} (h : ∀ e, (∀ y ∈ e.operands, P y) → P e)
    (e : Node α) : P e :=
  children_induction (fun e ih => h e fun y hy => ih y (operands_subset_children e hy)) e

/-- The operands of an inferred node are inferred with it. -/
theorem operand_mem_reached (hy : y ∈ x.operands) (e : Node α) (hx : x ∈ e.reached) :
    y ∈ e.reached := by
  induction e using operands_induction with
  | h e ih =>
    rw [mem_reached_iff]
    rcases mem_reached_iff.mp hx with rfl | ⟨z, hz, hx⟩
    · exact .inr ⟨y, hy, mem_reached_self y⟩
    · exact .inr ⟨z, hz, ih z hz hx⟩

theorem operands_sublist_preorder (e : Node α) :
    (e :: e.operands.flatMap Node.preorder).Sublist e.preorder := by
  cases e <;> simp [Node.operands, Node.preorder, preorderOf_eq_flatMap]

end Operands

/-- How many nodes have a number. -/
def count (n : NodeId) (nodes : List Expr) : Nat := nodes.countP fun x => x.id = n

@[simp] theorem count_nil (n : NodeId) : count n [] = 0 := rfl

@[simp] theorem count_append (n : NodeId) (xs ys : List Expr) :
    count n (xs ++ ys) = count n xs + count n ys := List.countP_append

theorem count_le_cons (n : NodeId) (x : Expr) (xs : List Expr) : count n xs ≤ count n (x :: xs) :=
  List.Sublist.countP_le (List.sublist_cons_self x xs)

theorem count_perm (n : NodeId) (h : xs.Perm ys) : count n xs = count n ys := h.countP_eq _

/-- Sequences group bindings, and any other node is a binding. -/
theorem bindings_induction {P : List (Node α) → Prop} (nil : P [])
    (group : ∀ note items rest, P items → P rest → P (.sequence note items :: rest))
    (cons : ∀ e rest, (∀ note items, e ≠ .sequence note items) → e.bindings = [e] → P rest →
      P (e :: rest)) (es : List (Node α)) : P es := by
  cases es with
  | nil => exact nil
  | cons e rest =>
    have hrest := bindings_induction nil group cons rest
    cases e with
    | sequence note items => exact group note items rest (bindings_induction nil group cons items) hrest
    | _ => exact cons _ rest (by intro _ _ h; cases h) rfl hrest

theorem count_bindingsOf_le (n : NodeId) (es : List Expr) :
    count n (preorderOf (bindingsOf es)) ≤ count n (preorderOf es) := by
  induction es using bindings_induction with
  | nil => exact Nat.le_refl _
  | group note items rest hitems hrest =>
    have hnode := count_le_cons n (.sequence note items) (preorderOf items)
    simp only [bindingsOf, Node.bindings, Node.preorder, preorderOf_append, preorderOf, count_append]
    exact Nat.add_le_add (Nat.le_trans hitems hnode) hrest
  | cons e rest hne he ih =>
    simp only [bindingsOf, he, preorderOf_append, preorderOf, count_append, List.append_nil]
    exact Nat.add_le_add_left ih _

/-- The nodes have distinct numbers, from `k` on and below `k'`. -/
structure Numbered (k k' : Nat) (nodes : List Expr) : Prop where
  le : k ≤ k'
  nodup : (nodes.map Node.id).Nodup
  range : ∀ x ∈ nodes, k ≤ x.id.index ∧ x.id.index < k'

namespace Numbered

theorem nil (k : Nat) : Numbered k k [] := ⟨Nat.le_refl k, by simp, by simp⟩

theorem append (h : Numbered k k' xs) (h' : Numbered k' k'' ys) : Numbered k k'' (xs ++ ys) where
  le := Nat.le_trans h.le h'.le
  nodup := by
    rw [List.map_append]
    refine h.nodup.append h'.nodup ?_
    intro id hx hy
    obtain ⟨x, hxs, rfl⟩ := List.mem_map.mp hx
    obtain ⟨y, hys, heq⟩ := List.mem_map.mp hy
    have hlt := (h.range x hxs).2
    have hle := (h'.range y hys).1
    rw [heq] at hle
    omega
  range := by
    intro x hx
    have hle := h.le
    have hle' := h'.le
    rcases List.mem_append.mp hx with hx | hx
    · have hrange := h.range x hx
      omega
    · have hrange := h'.range x hx
      omega

theorem cons {e : Expr} (h : Numbered k k' xs) (he : e.id = ⟨k'⟩) :
    Numbered k (k' + 1) (e :: xs) where
  le := Nat.le_succ_of_le h.le
  nodup := by
    rw [List.map_cons, List.nodup_cons]
    refine ⟨?_, h.nodup⟩
    intro hmem
    obtain ⟨x, hx, heq⟩ := List.mem_map.mp hmem
    have hlt := (h.range x hx).2
    rw [heq, he] at hlt
    exact absurd hlt (Nat.lt_irrefl k')
  range := by
    intro x hx
    have hle := h.le
    rcases List.mem_cons.mp hx with rfl | hx
    · rw [he]
      exact ⟨hle, Nat.lt_succ_self k'⟩
    · have hrange := h.range x hx
      omega

theorem count_le_one (h : Numbered k k' xs) (n : NodeId) : count n xs ≤ 1 := by
  have hcount : count n xs = (xs.map Node.id).count n := by
    rw [count, List.count, List.countP_map]
    congr
  rw [hcount]
  exact List.nodup_iff_count_le_one.mp h.nodup n

theorem perm (h : Numbered k k' xs) (hp : xs.Perm ys) : Numbered k k' ys where
  le := h.le
  nodup := (hp.map Node.id).nodup_iff.mp h.nodup
  range x hx := h.range x (hp.mem_iff.mpr hx)

end Numbered
end Binder.Tree
