import Binder.Module.Bind
import Mathlib.Data.List.Induction
import Mathlib.Data.List.Perm.Basic
import Mathlib.Tactic.Common
import Mathlib.Tactic.Tauto

/-! Which bindings bear a name. Of the types of one name the first is declared, and of the values of a
name that no type bears; the other definitions lose. Every binding wins, loses, or defines nothing. -/
namespace Binder

open Binder.Tree (Expr Mark NodeId)

section Sifting

variable {α β : Type} {p : List α → α → Bool} {l : List α} {name? : α → Option String}
  {taken : List String} {x : String} {f : α → Option β} {a : α}

/-- The items of a list that pass a test, which is shown the items before them as well. -/
def siftAfter (p : List α → α → Bool) : (before : List α) → List α → List α
  | _, [] => []
  | before, a :: rest =>
      if p before a then a :: siftAfter p (before ++ [a]) rest else siftAfter p (before ++ [a]) rest

def sift (p : List α → α → Bool) (l : List α) : List α := siftAfter p [] l

theorem siftAfter_snoc (before l : List α) (a : α) :
    siftAfter p before (l ++ [a]) = siftAfter p before l ++ if p (before ++ l) a then [a] else [] := by
  induction l generalizing before with
  | nil => simp [siftAfter]
  | cons b l ih =>
    simp only [List.cons_append, siftAfter, ih, List.append_assoc]
    split <;> rfl

theorem sift_snoc (l : List α) (a : α) :
    sift p (l ++ [a]) = sift p l ++ if p l a then [a] else [] := siftAfter_snoc [] l a

theorem filterMap_snoc (f : α → Option β) (l : List α) (a : α) :
    (l ++ [a]).filterMap f = l.filterMap f ++ (f a).toList := by
  rw [List.filterMap_append]
  cases ha : f a <;> simp [ha]

theorem filterMap_sift {q : List β → β → Bool}
    (h : ∀ before a b, f a = some b → p before a = q (before.filterMap f) b) (l : List α) :
    (sift p l).filterMap f = sift q (l.filterMap f) := by
  induction l using List.reverseRecOn with
  | nil => rfl
  | append_singleton l a ih =>
    rw [sift_snoc, List.filterMap_append, ih, List.filterMap_append]
    cases ha : f a with
    | none => cases hp : p l a <;> simp [ha]
    | some b => cases hp : p l a <;> simp [ha, sift_snoc, ← h l a b ha, hp]

/-- The items that are the first of their names; a name may also be taken beforehand. -/
def winners (name? : α → Option String) (taken : List String) (l : List α) : List α :=
  sift (fun before a => (name? a).any fun x => x ∉ taken ∧ x ∉ before.filterMap name?) l

/-- The items whose names are taken, beforehand or by an item before them. -/
def losers (name? : α → Option String) (taken : List String) (l : List α) : List α :=
  sift (fun before a => (name? a).any fun x => x ∈ taken ∨ x ∈ before.filterMap name?) l

theorem winners_snoc (l : List α) (a : α) :
    winners name? taken (l ++ [a]) = winners name? taken l ++
      if (name? a).any (fun x => x ∉ taken ∧ x ∉ l.filterMap name?) then [a] else [] :=
  sift_snoc l a

theorem losers_snoc (l : List α) (a : α) :
    losers name? taken (l ++ [a]) = losers name? taken l ++
      if (name? a).any (fun x => x ∈ taken ∨ x ∈ l.filterMap name?) then [a] else [] :=
  sift_snoc l a

/-- Whatever has a name wins or loses, and not both. -/
theorem winners_append_losers (name? : α → Option String) (taken : List String) (l : List α) :
    (winners name? taken l ++ losers name? taken l).Perm (l.filter fun a => (name? a).isSome) := by
  induction l using List.reverseRecOn with
  | nil => exact .refl _
  | append_singleton l a ih =>
    rw [winners_snoc, losers_snoc, List.filter_append]
    cases ha : name? a with
    | none => simpa [ha] using ih
    | some x =>
      by_cases hx : x ∈ taken ∨ x ∈ l.filterMap name?
      · have hnot : ¬ (x ∉ taken ∧ x ∉ l.filterMap name?) := by tauto
        simpa [ha, hx, hnot, ← List.append_assoc, -List.mem_filterMap] using ih.append_right [a]
      · have hnew : x ∉ taken ∧ x ∉ l.filterMap name? := by tauto
        have hmoved : (winners name? taken l ++ [a] ++ losers name? taken l).Perm
            (winners name? taken l ++ losers name? taken l ++ [a]) := by
          rw [List.append_assoc, List.append_assoc]
          exact List.Perm.append_left _ List.perm_append_comm
        simpa [ha, hx, hnew, -List.mem_filterMap] using hmoved.trans (ih.append_right [a])

theorem mem_of_mem_winners (h : a ∈ winners name? taken l) : a ∈ l :=
  List.mem_of_mem_filter ((winners_append_losers name? taken l).mem_iff.mp (List.mem_append_left _ h))

theorem isSome_of_mem_losers (h : a ∈ losers name? taken l) : (name? a).isSome := by
  have hmem := (winners_append_losers name? taken l).mem_iff.mp (List.mem_append_right _ h)
  exact (List.mem_filter.mp hmem).2

theorem filterMap_winners (f : α → Option β) (label : β → String) (taken : List String) (l : List α) :
    (winners (fun a => (f a).map label) taken l).filterMap f =
        winners (some ∘ label) taken (l.filterMap f) ∧
      (losers (fun a => (f a).map label) taken l).filterMap f =
        losers (some ∘ label) taken (l.filterMap f) := by
  have hnames : ∀ before : List α, before.filterMap (fun a => (f a).map label) =
      (before.filterMap f).filterMap (some ∘ label) := by
    intro before
    rw [List.filterMap_filterMap]
    congr 1
    funext a
    exact Option.map_eq_bind
  constructor <;>
  · apply filterMap_sift
    intro before a b hb
    simp only [hnames, hb]
    rfl

theorem map_filterMap_of_forall {γ : Type} {g : β → γ} {k : α → γ}
    (h : ∀ a ∈ l, ∃ b, f a = some b ∧ g b = k a) : (l.filterMap f).map g = l.map k := by
  rw [List.map_filterMap, ← List.filterMap_eq_map]
  apply List.filterMap_congr
  intro a ha
  obtain ⟨b, hb, hg⟩ := h a ha
  rw [hb, Option.map_some, hg]
  rfl

theorem find?_winners (hx : x ∉ taken) (l : List α) :
    (winners name? taken l).find? (fun a => name? a = some x) =
      l.find? fun a => name? a = some x := by
  induction l using List.reverseRecOn with
  | nil => rfl
  | append_singleton l a ih =>
    rw [winners_snoc, List.find?_append, List.find?_append, ih]
    cases hfound : l.find? (fun a => decide (name? a = some x)) with
    | some b => rfl
    | none =>
      simp only [Option.none_or]
      by_cases ha : name? a = some x
      · have hnone : x ∉ l.filterMap name? := by
          simpa [List.mem_filterMap] using List.find?_eq_none.mp hfound
        simp [ha, hx, hnone, -List.mem_filterMap]
      · split <;> simp [ha]

theorem mem_names_winners (l : List α) :
    x ∈ (winners name? taken l).filterMap name? ↔ x ∈ l.filterMap name? ∧ x ∉ taken := by
  induction l using List.reverseRecOn with
  | nil => simp [winners, sift, siftAfter]
  | append_singleton l a ih =>
    rw [winners_snoc, List.filterMap_append, List.mem_append, ih, filterMap_snoc, List.mem_append]
    cases ha : name? a with
    | none => simp
    | some y =>
      rw [Option.any_some, Option.toList_some, List.mem_singleton]
      by_cases hy : y ∉ taken ∧ y ∉ l.filterMap name?
      · rw [decide_eq_true hy, if_pos rfl, List.filterMap_cons_some ha]
        grind
      · rw [decide_eq_false hy, if_neg Bool.false_ne_true, List.filterMap_nil]
        grind

theorem nodup_names_winners (l : List α) : ((winners name? taken l).filterMap name?).Nodup := by
  induction l using List.reverseRecOn with
  | nil => exact .nil
  | append_singleton l a ih =>
    rw [winners_snoc]
    split
    next hnew =>
      obtain ⟨y, ha, hy⟩ := (Option.any_eq_true ..).mp hnew
      have hfree : y ∉ (winners name? taken l).filterMap name? := fun hmem =>
        (decide_eq_true_iff.mp hy).2 ((mem_names_winners l).mp hmem).1
      rw [filterMap_snoc, ha]
      exact (List.perm_append_singleton y _).nodup_iff.mpr (List.nodup_cons.mpr ⟨hfree, ih⟩)
    next => rwa [List.append_nil]

theorem losers_eq_nil_iff (htaken : taken.Nodup) (l : List α) :
    losers name? taken l = [] ↔ (taken ++ l.filterMap name?).Nodup := by
  induction l using List.reverseRecOn with
  | nil => simpa [losers, sift, siftAfter] using htaken
  | append_singleton l a ih =>
    rw [losers_snoc, List.append_eq_nil_iff, ih, filterMap_snoc, ← List.append_assoc]
    cases ha : name? a with
    | none => simp
    | some y =>
      have hlast : (taken ++ l.filterMap name? ++ [y]).Nodup ↔
          (taken ++ l.filterMap name?).Nodup ∧ y ∉ taken ++ l.filterMap name? := by
        rw [(List.perm_append_singleton y _).nodup_iff, List.nodup_cons, and_comm]
      rw [Option.toList_some, hlast, List.mem_append]
      simp [-List.mem_filterMap]

theorem winners_of_losers (l : List α) (h : losers name? taken l = []) :
    winners name? taken l = l.filter fun a => (name? a).isSome := by
  induction l using List.reverseRecOn with
  | nil => rfl
  | append_singleton l a ih =>
    rw [losers_snoc, List.append_eq_nil_iff] at h
    rw [winners_snoc, ih h.1, List.filter_append]
    cases ha : name? a with
    | none => simp [ha]
    | some y =>
      have hy : ¬ (y ∈ taken ∨ y ∈ l.filterMap name?) := by simpa [ha] using h.2
      rw [not_or] at hy
      simp [ha, hy, -List.mem_filterMap]

section Numbering

variable {name : α → String} {k : Nat}

/-- The items that are the first of their names, each with the number that it has in the list. -/
def numbered (name : α → String) (taken : List String) (k : Nat) (l : List α) : List (α × Nat) :=
  winners (fun x => some (name x.1)) taken (l.zipIdx k)

theorem numbered_snoc (l : List α) (a : α) : numbered name taken k (l ++ [a]) =
    numbered name taken k l ++
      if name a ∉ taken ∧ name a ∉ l.map name then [(a, k + l.length)] else [] := by
  have hnames : (l.zipIdx k).filterMap (fun x => some (name x.1)) = l.map name := by
    rw [List.filterMap_eq_map', ← List.zipIdx_map_fst k l, List.map_map, List.zipIdx_map_fst]
    rfl
  rw [numbered, List.zipIdx_append, List.zipIdx_singleton, winners_snoc, hnames, Option.any_some]
  simp only [decide_eq_true_eq]
  rfl

theorem map_fst_numbered (l : List α) :
    (numbered name taken k l).map Prod.fst = winners (some ∘ name) taken l := by
  induction l using List.reverseRecOn with
  | nil => rfl
  | append_singleton l a ih =>
    rw [numbered_snoc, winners_snoc, List.map_append, ih, List.filterMap_eq_map]
    by_cases ha : name a ∉ taken ∧ name a ∉ l.map name
    · simp [ha, -List.mem_map]
    · simp [ha, -List.mem_map]

theorem getElem?_of_mem_numbered {l : List α} {x : α × Nat} (h : x ∈ numbered name taken k l) :
    k ≤ x.2 ∧ l[x.2 - k]? = some x.1 :=
  List.mk_mem_zipIdx_iff_le_and_getElem?_sub.mp (mem_of_mem_winners h)

theorem nodup_numbered (l : List α) : ((numbered name taken k l).map Prod.snd).Nodup := by
  induction l using List.reverseRecOn with
  | nil => exact .nil
  | append_singleton l a ih =>
    rw [numbered_snoc]
    split
    next =>
      rw [List.map_append, List.map_singleton,
        (List.perm_append_singleton (k + l.length) _).nodup_iff, List.nodup_cons]
      refine ⟨?_, ih⟩
      intro hmem
      obtain ⟨x, hx, hlast⟩ := List.mem_map.mp hmem
      obtain ⟨-, hget⟩ := getElem?_of_mem_numbered hx
      rw [hlast, Nat.add_sub_cancel_left, List.getElem?_length] at hget
      cases hget
    next => rwa [List.append_nil]

theorem numbered_of_losers {l : List α} (h : losers (some ∘ name) taken l = []) :
    numbered name taken k l = l.zipIdx k := by
  induction l using List.reverseRecOn with
  | nil => rfl
  | append_singleton l a ih =>
    rw [losers_snoc, List.append_eq_nil_iff, List.filterMap_eq_map] at h
    have ha : ¬ (name a ∈ taken ∨ name a ∈ l.map name) := by simpa using h.2
    rw [numbered_snoc, ih h.1, if_pos (not_or.mp ha), List.zipIdx_append]
    rfl

end Numbering

end Sifting

namespace Tree.Node

variable {α : Type}

/-- The name of the type that a binding declares and the members of the type. -/
def declaredType? : Node α → Option (String × List (Tree.Member α))
  | .definition _ false name none (some (.typeLiteral _ members)) => some (name, members)
  | _ => none

/-- A binding that defines a value. -/
def definition? : Expr → Option Definition
  | .definition _ false _ none (some (.typeLiteral _ _)) => none
  | .definition note mutable name ascription value => some ⟨note, mutable, name, ascription, value⟩
  | _ => none

theorem declaredType?_eq_some {e : Node α} {d : String × List (Tree.Member α)}
    (h : e.declaredType? = some d) :
    ∃ note note', e = .definition note false d.1 none (some (.typeLiteral note' d.2)) := by
  unfold declaredType? at h
  split at h
  · cases h
    exact ⟨_, _, rfl⟩
  · cases h

theorem definition?_eq_some {e : Expr} {d : Definition} (h : e.definition? = some d) :
    e = .definition d.node d.mutable d.name d.ascription d.value := by
  unfold definition? at h
  split at h
  · cases h
  · cases h
    rfl
  · cases h

theorem declaredMembers?_eq (e : Expr) : e.declaredMembers? = e.declaredType?.map Prod.snd := by
  cases h : e.declaredType? with
  | some d =>
    obtain ⟨note, note', rfl⟩ := declaredType?_eq_some h
    rfl
  | none =>
    unfold declaredMembers?
    split
    next => cases h
    next => rfl

theorem definition?_of_declaredType? {note : Mark} {mutable : Bool} {name : String}
    {ascription value : Option Expr}
    (h : (Node.definition note mutable name ascription value).declaredType? = none) :
    (Node.definition note mutable name ascription value).definition? =
      some ⟨note, mutable, name, ascription, value⟩ := by
  unfold definition?
  split
  next heq => cases heq; cases h
  next heq => cases heq; rfl
  next hother => exact (hother _ _ _ _ _ rfl).elim

def extension? : Expr → Option Extension
  | .extension _ target members => some ⟨target, members⟩
  | _ => none

def expression? : Expr → Option Expr
  | .definition .. | .extension .. => none
  | e => some e

end Tree.Node

def Tree.Node.definedName? {α : Type} : Tree.Node α → Option String
  | .definition _ _ name _ _ => some name
  | _ => none

def Tree.definedNames (bindings : List Expr) : List String := bindings.filterMap Node.definedName?

def Tree.typeNames (bindings : List Expr) : List String :=
  (bindings.filterMap Node.declaredType?).map Prod.fst

def Tree.valueNames (bindings : List Expr) : List String :=
  (bindings.filterMap Node.definition?).map Definition.name

namespace Tree

/-- The name of the type that a binding declares. -/
def Node.typeName? (e : Expr) : Option String := e.declaredType?.map Prod.fst

def Node.valueName? (e : Expr) : Option String := e.definition?.map Definition.name

variable {bindings : List Expr} {e : Expr} {n : NodeId}

theorem filterMap_typeName? (bindings : List Expr) :
    bindings.filterMap Node.typeName? = typeNames bindings := List.map_filterMap.symm

theorem filterMap_valueName? (bindings : List Expr) :
    bindings.filterMap Node.valueName? = valueNames bindings := List.map_filterMap.symm

/-- The bindings that declare a type: the first one of each name. -/
def winningTypes (bindings : List Expr) : List Expr := winners Node.typeName? [] bindings

def losingTypes (bindings : List Expr) : List Expr := losers Node.typeName? [] bindings

/-- The bindings that define a value: the first one of each name that no type bears. -/
def winningValues (bindings : List Expr) : List Expr :=
  winners Node.valueName? (typeNames bindings) bindings

def losingValues (bindings : List Expr) : List Expr :=
  losers Node.valueName? (typeNames bindings) bindings

/-- The bindings that define nothing. -/
def bystanders (bindings : List Expr) : List Expr :=
  bindings.filter fun e => e.definedName?.isNone

/-- The bindings that a build goes on with once all names are declared. -/
def standing (bindings : List Expr) : List Expr :=
  winningTypes bindings ++ winningValues bindings ++ bystanders bindings

/-- The definitions whose names are borne by others. -/
def duplicates (bindings : List Expr) : List Expr := losingTypes bindings ++ losingValues bindings

theorem Node.defines_cases (e : Expr) :
    (e.typeName?.isSome ∧ e.valueName? = none ∧ e.definedName?.isSome) ∨
      (e.typeName? = none ∧ e.valueName?.isSome ∧ e.definedName?.isSome) ∨
      (e.typeName? = none ∧ e.valueName? = none ∧ e.definedName? = none) := by
  cases e with
  | definition note mutable name ascription value =>
    unfold typeName? valueName? declaredType? definition?
    split
    next heq => cases heq; exact .inl ⟨rfl, rfl, rfl⟩
    next hother =>
      split
      next heq => exact (hother _ _ _ _ heq).elim
      next => exact .inr (.inl ⟨rfl, rfl, rfl⟩)
      next hnone => exact (hnone _ _ _ _ _ rfl).elim
  | _ => exact .inr (.inr ⟨rfl, rfl, rfl⟩)

theorem Node.definedName?_eq (e : Expr) : e.definedName? = e.typeName?.or e.valueName? := by
  cases hdeclared : e.declaredType? with
  | some d =>
    obtain ⟨note, note', rfl⟩ := declaredType?_eq_some hdeclared
    rfl
  | none =>
    rw [typeName?, hdeclared, Option.map_none, Option.none_or, valueName?]
    cases e with
    | definition => rw [definition?_of_declaredType? hdeclared]; rfl
    | _ => rfl

theorem mem_definedNames {x : String} :
    x ∈ definedNames bindings ↔ x ∈ typeNames bindings ∨ x ∈ valueNames bindings := by
  rw [← filterMap_typeName?, ← filterMap_valueName?]
  simp only [definedNames, List.mem_filterMap, Node.definedName?_eq, ← exists_or, ← and_or_left]
  refine exists_congr fun e => and_congr_right fun _ => ?_
  rcases e.defines_cases with ⟨ht, hv, -⟩ | ⟨ht, hv, -⟩ | ⟨ht, hv, -⟩
  · simp [hv]
  · simp [ht]
  · simp [ht, hv]

theorem filter_defines_perm (bindings : List Expr) :
    (bindings.filter (fun e => e.typeName?.isSome) ++ bindings.filter (fun e => e.valueName?.isSome) ++
      bystanders bindings).Perm bindings := by
  induction bindings with
  | nil => exact .refl _
  | cons e rest ih =>
    rcases e.defines_cases with ⟨ht, hv, hd⟩ | ⟨ht, hv, hd⟩ | ⟨ht, hv, hd⟩
    · have hd' : e.definedName? ≠ none := by simpa [Option.isSome_iff_ne_none] using hd
      simpa [bystanders, ht, hv, hd'] using ih
    · have hd' : e.definedName? ≠ none := by simpa [Option.isSome_iff_ne_none] using hd
      rw [List.append_assoc] at ih
      simpa [bystanders, ht, hv, hd'] using List.perm_middle.trans (ih.cons e)
    · simpa [bystanders, ht, hv, hd] using List.perm_middle.trans (ih.cons e)

/-- Every binding wins, loses, or defines nothing. -/
theorem perm_bindings (bindings : List Expr) :
    (standing bindings ++ duplicates bindings).Perm bindings := by
  have htypes := winners_append_losers Node.typeName? [] bindings
  have hvalues := winners_append_losers Node.valueName? (typeNames bindings) bindings
  refine .trans ?_ (filter_defines_perm bindings)
  refine .trans ?_ ((htypes.append hvalues).append_right (bystanders bindings))
  classical
  rw [List.perm_iff_count]
  intro e
  simp only [standing, duplicates, winningTypes, losingTypes, winningValues, losingValues,
    List.count_append]
  omega

end Tree

end Binder
