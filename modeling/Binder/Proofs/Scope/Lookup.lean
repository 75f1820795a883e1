import Binder.Scope.Basic
import Mathlib.Data.List.Nodup
import Mathlib.Data.List.Sort

/-! What a name means in a scope. A scope finds in its tables, one after the other, what it finds; sorting
the entries of a table and leaving out repeated names does not change that, and of two scopes one after
the other the first decides. -/
namespace Binder

variable {α : Type} [Named α] {entries : List α} {name : String} {a : α}

theorem lookup?_firsts (name : String) (entries : List α) :
    lookup? name (firsts entries) = lookup? name entries := by
  induction entries with
  | nil => rfl
  | cons a rest ih =>
    by_cases hname : Named.name a = name
    · simp [lookup?, firsts, hname]
    · have hkept : lookup? name ((firsts rest).filter fun b => Named.name b ≠ Named.name a) =
          lookup? name (firsts rest) := by
        simp only [lookup?, List.find?_filter]
        congr 1
        funext b
        by_cases hb : Named.name b = name
        · simpa [hb] using fun heq => hname heq.symm
        · simp [hb]
      rw [firsts, lookup?, List.find?_cons_of_neg (by simpa using hname)]
      exact (hkept.trans ih).trans (List.find?_cons_of_neg (by simpa using hname)).symm

theorem lookup?_eq_none_iff : lookup? name entries = none ↔ ∀ a ∈ entries, Named.name a ≠ name := by
  simp [lookup?]

theorem lookup?_of_mem (h : (entries.map Named.name).Nodup) (ha : a ∈ entries) :
    lookup? (Named.name a) entries = some a := by
  cases hfound : lookup? (Named.name a) entries with
  | none => exact absurd rfl (lookup?_eq_none_iff.mp hfound a ha)
  | some b =>
    have hname : Named.name b = Named.name a := by simpa using List.find?_some hfound
    rw [List.inj_on_of_nodup_map h (List.mem_of_find?_eq_some hfound) ha hname]

namespace Scope

theorem nameLe_trans (a b c : α) (hab : decide (Named.name a ≤ Named.name b) = true)
    (hbc : decide (Named.name b ≤ Named.name c) = true) :
    decide (Named.name a ≤ Named.name c) = true :=
  decide_eq_true (String.le_trans (of_decide_eq_true hab) (of_decide_eq_true hbc))

theorem nameLe_total (a b : α) :
    (decide (Named.name a ≤ Named.name b) || decide (Named.name b ≤ Named.name a)) = true := by
  simpa using String.le_total (Named.name a) (Named.name b)

theorem pairwise_sorted (entries : List α) :
    (entries.mergeSort fun a b => decide (Named.name a ≤ Named.name b)).Pairwise
      fun a b => Named.name a ≤ Named.name b :=
  (List.pairwise_mergeSort nameLe_trans nameLe_total entries).imp of_decide_eq_true

/-- Entries of one name stay in their order, so that the first of them is still in front. -/
theorem lookup?_sorted (name : String) (entries : List α) :
    lookup? name (entries.mergeSort fun a b => decide (Named.name a ≤ Named.name b)) =
      lookup? name entries := by
  let alike := fun a : α => decide (Named.name a = name)
  let sorted := entries.mergeSort fun a b => decide (Named.name a ≤ Named.name b)
  have hpairwise : (entries.filter alike).Pairwise fun a b => decide (Named.name a ≤ Named.name b) := by
    refine List.pairwise_of_forall_mem_list fun a ha b hb => ?_
    have hnames : Named.name a = Named.name b :=
      (of_decide_eq_true (List.mem_filter.mp ha).2).trans (of_decide_eq_true (List.mem_filter.mp hb).2).symm
    exact decide_eq_true (hnames ▸ String.le_refl _)
  have hstable : (entries.filter alike).Sublist sorted :=
    List.sublist_mergeSort nameLe_trans nameLe_total hpairwise List.filter_sublist
  have hfiltered : (entries.filter alike).Sublist (sorted.filter alike) := by
    simpa using hstable.filter alike
  have hlength : (entries.filter alike).length = (sorted.filter alike).length :=
    ((List.mergeSort_perm entries _).filter alike).length_eq.symm
  rw [lookup?, lookup?, ← List.head?_filter, ← List.head?_filter]
  exact congrArg List.head? (hfiltered.eq_of_length hlength).symm

mutual

/-- The tables of a scope, one after the other. -/
def tables : Scope α → List (List α)
  | empty => []
  | table entries => [entries]
  | merged parts => allTables parts

def allTables : List (Scope α) → List (List α)
  | [] => []
  | part :: rest => part.tables ++ allTables rest

end

mutual

theorem find?_eq_findSome? : (s : Scope α) → (name : String) →
    s.find? name = s.tables.findSome? (lookup? name)
  | empty, _ => rfl
  | table entries, name => by
    rw [find?, tables, List.findSome?_singleton]
  | merged parts, name => findFirst?_eq_findSome? parts name

theorem findFirst?_eq_findSome? : (parts : List (Scope α)) → (name : String) →
    findFirst? parts name = (allTables parts).findSome? (lookup? name)
  | [], _ => rfl
  | part :: rest, name => by
    rw [findFirst?, allTables, List.findSome?_append, find?_eq_findSome? part,
      findFirst?_eq_findSome? rest]

end

omit [Named α] in
theorem isEmpty_iff_eq {s : Scope α} : s.isEmpty = true ↔ s = empty := by
  cases s <;> simp [isEmpty]

omit [Named α] in
theorem allTables_eq (parts : List (Scope α)) : allTables parts = parts.flatMap tables := by
  induction parts with
  | nil => rfl
  | cons part rest ih => rw [allTables, ih, List.flatMap_cons]

omit [Named α] in
theorem tables_merge (scopes : List (Scope α)) : (merge scopes).tables = scopes.flatMap tables := by
  have hparts (s : Scope α) : s.parts.flatMap tables = s.tables := by
    cases s with
    | empty => rfl
    | table entries => rfl
    | merged parts => exact (allTables_eq parts).symm
  have hflat : scopes.flatMap tables = (scopes.flatMap parts).flatMap tables := by
    simp only [List.flatMap_assoc, hparts]
  rw [hflat, merge]
  split
  next heq => rw [heq]; rfl
  next part heq => rw [heq, List.flatMap_singleton]
  next => exact allTables_eq _

/-- A table finds the first entry of a name. -/
theorem find?_ofList (name : String) (entries : List α) :
    (ofList entries).find? name = lookup? name entries := by
  cases entries with
  | nil => rfl
  | cons a rest => simp [ofList, find?, arrange, lookup?_firsts, lookup?_sorted]

theorem find?_merge_eq (scopes : List (Scope α)) (name : String) :
    (merge scopes).find? name = scopes.findSome? fun s => s.find? name := by
  rw [find?_eq_findSome?, tables_merge]
  induction scopes with
  | nil => rfl
  | cons s scopes ih =>
    rw [List.flatMap_cons, List.findSome?_append, ih, ← find?_eq_findSome?, List.findSome?_cons]
    cases s.find? name <;> rfl

theorem find?_merge (s s' : Scope α) (name : String) :
    (merge [s, s']).find? name = (s.find? name).or (s'.find? name) := by
  rw [find?_merge_eq, List.findSome?_cons, List.findSome?_singleton]
  cases s.find? name <;> rfl

/-! Scopes as merging makes them -/

omit [Named α]

/-- The scope of some tables, one after the other. -/
def ofTables (tables : List (List α)) : Scope α := merge (tables.map table)

/-- Nothing but tables is merged in a scope, and never fewer than two. -/
def Flat (s : Scope α) : Prop := s = ofTables s.tables

variable {s : Scope α} {scopes : List (Scope α)}

theorem flat_empty : (empty : Scope α).Flat := rfl

theorem flat_table (entries : List α) : (table entries).Flat := rfl

theorem flatMap_parts_table (tables : List (List α)) :
    (tables.map table).flatMap parts = tables.map table := by
  rw [List.flatMap_map]
  exact List.map_eq_flatMap.symm

theorem Flat.parts_eq (h : s.Flat) : s.parts = s.tables.map table := by
  have hparts (ts : List (List α)) : (ofTables ts).parts = ts.map table := by
    rw [ofTables, merge, flatMap_parts_table]
    match ts with
    | [] => rfl
    | [t] => rfl
    | t :: t' :: ts => rfl
  rw [h, hparts, ← h]

theorem merge_eq_ofTables (h : ∀ s ∈ scopes, s.Flat) : merge scopes = ofTables (scopes.flatMap tables) := by
  have hparts : scopes.flatMap parts = (scopes.flatMap tables).map table := by
    rw [List.map_flatMap]
    exact List.flatMap_congr fun s hs => (h s hs).parts_eq
  rw [ofTables, merge, merge, hparts, flatMap_parts_table]

theorem flat_merge (h : ∀ s ∈ scopes, s.Flat) : (merge scopes).Flat := by
  rw [Flat, tables_merge]
  exact merge_eq_ofTables h

end Scope
end Binder
