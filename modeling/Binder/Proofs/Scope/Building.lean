import Binder.Proofs.Scope.Frozen
import Binder.Scope.Builder
import Binder.TypeGraph.Basic

/-! Scopes under construction as association lists. A builder finds what a plain list of names and
entries has for a name, in front of its base, and freezing keeps what is found, although the live table
is sorted for it and searched by halving. -/
namespace Binder

variable {α : Type} [Named α]

namespace Scope

/-- Nothing but tables is merged, which are strictly sorted and have entries. -/
structure Proper (s : Scope α) : Prop where
  flat : s.Flat
  tables : ∀ t ∈ s.tables, t ≠ [] ∧ t.Pairwise fun a b => Named.name a < Named.name b

/-- Looks for a name in one table after the other by halving. -/
def search? (s : Scope α) (name : String) : Option α := s.tables.findSome? (bisect? name)

variable {s : Scope α} {scopes : List (Scope α)}

theorem Proper.search?_eq (h : s.Proper) (name : String) : s.search? name = s.find? name := by
  rw [find?_eq_findSome?]
  have hlookup : ∀ tables : List (List α),
      (∀ t ∈ tables, t.Pairwise fun a b => Named.name a < Named.name b) →
        tables.findSome? (bisect? name) = tables.findSome? (lookup? name) := by
    intro tables htables
    induction tables with
    | nil => rfl
    | cons t tables ih =>
      rw [List.findSome?_cons, List.findSome?_cons, bisect?_eq_lookup? (htables t List.mem_cons_self),
        ih fun t ht => htables t (List.mem_cons_of_mem _ ht)]
  exact hlookup s.tables fun t ht => (h.tables t ht).2

theorem proper_empty : (empty : Scope α).Proper := ⟨flat_empty, List.forall_mem_nil _⟩

theorem proper_ofList (entries : List α) : (ofList entries).Proper := by
  cases entries with
  | nil => exact proper_empty
  | cons a rest =>
    refine ⟨flat_table _, fun t ht => ?_⟩
    rw [List.mem_singleton.mp ht]
    refine ⟨?_, pairwise_arrange _⟩
    intro hnil
    have hfound : lookup? (Named.name a) (arrange (a :: rest)) = none := by rw [hnil]; rfl
    rw [arrange, lookup?_firsts, lookup?_eq_none_iff] at hfound
    exact hfound a (List.mem_mergeSort.mpr List.mem_cons_self) rfl

/-- Under each name a table has the first of the entries, also for one who looks by halving, and entries
with distinct names make one table, whatever their order. -/
theorem ofList_keeps_firsts (entries : List α) :
    (∀ name, (ofList entries).find? name = entries.find? fun a => Named.name a = name) ∧
      (∀ name, (ofList entries).search? name = entries.find? fun a => Named.name a = name) ∧
      ∀ entries' : List α, entries'.Perm entries → (entries.map Named.name).Nodup →
        ofList entries' = ofList entries := by
  refine ⟨fun name => find?_ofList name entries, fun name => ?_, fun _ => ofList_eq_of_perm⟩
  rw [(proper_ofList entries).search?_eq, find?_ofList, lookup?]

/-- The first of two entries is found, and entries with two names can be turned around. -/
theorem ofList_keeps_firsts_repeatedName :
    (ofList [⟨"b", ⟨2⟩⟩, ⟨"a", ⟨3⟩⟩, ⟨"b", ⟨1⟩⟩] : Scope TypeName).search? "b" = some ⟨"b", ⟨2⟩⟩ ∧
      (ofList [⟨"a", ⟨3⟩⟩, ⟨"b", ⟨1⟩⟩] : Scope TypeName) = ofList [⟨"b", ⟨1⟩⟩, ⟨"a", ⟨3⟩⟩] :=
  ⟨(ofList_keeps_firsts _).2.1 "b", (ofList_keeps_firsts _).2.2 _ (.swap ..) (by decide)⟩

theorem proper_merge (h : ∀ s ∈ scopes, s.Proper) : (merge scopes).Proper := by
  refine ⟨flat_merge fun s hs => (h s hs).flat, fun t ht => ?_⟩
  rw [tables_merge] at ht
  obtain ⟨s, hs, hts⟩ := List.mem_flatMap.mp ht
  exact (h s hs).tables t hts

end Scope

namespace ScopeBuilder

/-- The ways to begin a scope. -/
inductive Origin (α : Type) where
  | empty
  | withBase (base : Scope α)
  | ofScope (base : Scope α)

/-- What can be done with a scope under construction. -/
inductive Step (α : Type) where
  | enter (a : α)
  | reenter (a : α)
  | freeze

def Origin.builder : Origin α → ScopeBuilder α
  | .empty => ScopeBuilder.empty
  | .withBase base => ScopeBuilder.withBase base
  | .ofScope base => ScopeBuilder.ofScope base

def step (b : ScopeBuilder α) : Step α → ScopeBuilder α
  | .enter a => (b.enter a).2
  | .reenter a => b.reenter a
  | .freeze => b.freeze.2

def run (b : ScopeBuilder α) (steps : List (Step α)) : ScopeBuilder α := steps.foldl step b

/-- Names with their entries, the latest first. -/
abbrev Association (α : Type) := List (String × α)

namespace Association

def ofEntries (entries : List α) : Association α := entries.map fun a => (Named.name a, a)

/-- Entering adds a name that is absent, reentering puts an entry in front of what was there, and
freezing begins anew. -/
def step (m : Association α) : Step α → Association α
  | .enter a => if (m.lookup (Named.name a)).isSome then m else (Named.name a, a) :: m
  | .reenter a => (Named.name a, a) :: m
  | .freeze => []

def run (m : Association α) (steps : List (Step α)) : Association α := steps.foldl step m

end Association

/-- The names that are live from the beginning: those of a scope of a single table. -/
def Origin.names : Origin α → Association α
  | .ofScope (.table entries) => .ofEntries entries
  | _ => []

def Origin.base : Origin α → Scope α
  | .empty | .ofScope (.table _) => .empty
  | .withBase base | .ofScope base => base

def Origin.source : Origin α → Scope α
  | .empty => .empty
  | .withBase base | .ofScope base => base

/-- A builder finds under a live name what the list has, and its base is the one it began with. -/
structure Refines (b : ScopeBuilder α) (m : Association α) (base : Scope α) : Prop where
  nodup : (b.live.map Named.name).Nodup
  lookup : ∀ name, lookup? name b.live = m.lookup name
  base_eq : b.base = base

variable {b : ScopeBuilder α} {m : Association α} {base : Scope α} {a : α} {live : List α}
  {origin : Origin α}

theorem lookup?_cons (name : String) (a : α) (entries : List α) :
    lookup? name (a :: entries) = if name = Named.name a then some a else lookup? name entries := by
  rw [lookup?, List.find?_cons]
  by_cases h : name = Named.name a
  · simp [h]
  · simp [h, Ne.symm h, lookup?]

theorem lookup_cons (name : String) (a : α) (m : Association α) :
    List.lookup name ((Named.name a, a) :: m) =
      if name = Named.name a then some a else m.lookup name := by
  by_cases h : name = Named.name a
  · simp [h]
  · rw [List.lookup_cons, beq_false_of_ne h, if_neg h]

theorem lookup_ofEntries (entries : List α) (name : String) :
    (Association.ofEntries entries).lookup name = lookup? name entries := by
  induction entries with
  | nil => rfl
  | cons a rest ih =>
    rw [lookup?_cons, ← ih, ← lookup_cons]
    rfl

theorem lookup?_append_absent (h : lookup? (Named.name a) live = none)
    (name : String) : lookup? name (live ++ [a]) =
      if name = Named.name a then some a else lookup? name live := by
  have happend : lookup? name (live ++ [a]) = (lookup? name live).or (lookup? name [a]) :=
    List.find?_append
  rw [happend, lookup?_cons]
  split
  next heq => rw [heq, h, Option.none_or]
  next => exact Option.or_none

theorem lookup?_replace {old : α} (h : lookup? (Named.name a) live = some old)
    (name : String) :
    lookup? name (live.map fun c => if Named.name c = Named.name a then a else c) =
      if name = Named.name a then some a else lookup? name live := by
  have hsame : lookup? name (live.map fun c => if Named.name c = Named.name a then a else c) =
      (lookup? name live).map fun c => if Named.name c = Named.name a then a else c := by
    rw [lookup?, List.find?_map, lookup?]
    congr 2
    funext c
    simp only [Function.comp_apply]
    split
    next hc => rw [hc]
    next => rfl
  rw [hsame]
  split
  next heq =>
    have hold : Named.name old = Named.name a := by simpa using List.find?_some h
    rw [heq, h, Option.map_some, if_pos hold]
  next hne =>
    cases hfound : lookup? name live with
    | none => rfl
    | some c =>
      have hc : Named.name c = name := by simpa using List.find?_some hfound
      rw [Option.map_some, if_neg (hc ▸ hne)]

theorem names_replace (a : α) (live : List α) :
    (live.map fun c => if Named.name c = Named.name a then a else c).map Named.name =
      live.map Named.name := by
  rw [List.map_map]
  refine List.map_congr_left fun c _ => ?_
  rw [Function.comp_apply]
  split
  next h => exact h.symm
  next => rfl

theorem nodup_append_absent (hlive : (live.map Named.name).Nodup)
    (h : lookup? (Named.name a) live = none) : ((live ++ [a]).map Named.name).Nodup := by
  rw [List.map_append, List.map_singleton, List.nodup_append]
  refine ⟨hlive, List.nodup_singleton _, ?_⟩
  intro name hname name' hname'
  obtain ⟨c, hc, rfl⟩ := List.mem_map.mp hname
  rw [List.mem_singleton.mp hname']
  exact lookup?_eq_none_iff.mp h c hc

theorem Refines.push (h : b.Refines m base) (habsent : lookup? (Named.name a) b.live = none) :
    Refines { b with live := b.live ++ [a] } ((Named.name a, a) :: m) base where
  nodup := nodup_append_absent h.nodup habsent
  lookup name := by rw [lookup?_append_absent habsent, lookup_cons, h.lookup]
  base_eq := h.base_eq

/-- One step of the builder is one step of the list. -/
theorem Refines.step (h : b.Refines m base) (s : Step α) : (b.step s).Refines (m.step s) base := by
  cases s with
  | enter a =>
    rw [ScopeBuilder.step, enter, Association.step, ← h.lookup]
    cases hlive : lookup? (Named.name a) b.live with
    | none => exact h.push hlive
    | some old => exact h
  | reenter a =>
    rw [ScopeBuilder.step, reenter, Association.step]
    cases hlive : lookup? (Named.name a) b.live with
    | none => exact h.push hlive
    | some old =>
      refine ⟨(names_replace a b.live).symm ▸ h.nodup, fun name => ?_, h.base_eq⟩
      rw [lookup?_replace hlive, lookup_cons, h.lookup]
  | freeze => exact ⟨List.nodup_nil, fun _ => rfl, h.base_eq⟩

/-- A builder that was just begun. Only a single table becomes live. -/
theorem refines_origin (h : origin.source.Proper) :
    origin.builder.Refines origin.names origin.base := by
  cases origin with
  | empty | withBase => exact ⟨List.nodup_nil, fun _ => rfl, rfl⟩
  | ofScope base =>
    cases base with
    | table entries =>
      have hstrict := (h.tables entries (List.mem_singleton.mpr rfl)).2
      refine ⟨List.pairwise_map.mpr (hstrict.imp String.ne_of_lt), fun name => ?_, rfl⟩
      exact (lookup_ofEntries entries name).symm
    | empty | merged => exact ⟨List.nodup_nil, fun _ => rfl, rfl⟩

theorem find?_freeze (b : ScopeBuilder α) (name : String) : b.freeze.1.find? name = b.find? name := by
  rw [freeze, Scope.find?_merge, Scope.find?_ofList, find?]

section

variable (h : b.Refines m base)
include h

theorem Refines.run (steps : List (Step α)) : (b.run steps).Refines (m.run steps) base := by
  induction steps generalizing b m with
  | nil => exact h
  | cons s steps ih => exact ih (h.step s)

theorem Refines.find?_eq (name : String) : b.find? name = (m.lookup name).or (base.find? name) := by
  rw [find?, h.lookup, h.base_eq]

theorem Refines.enter_eq (a : α) : (b.enter a).1 = match m.lookup (Named.name a) with
      | some old => (old, false)
      | none => (a, true) := by
  rw [enter, h.lookup]
  cases m.lookup (Named.name a) <;> rfl

theorem Refines.find?_frozen (name : String) :
    b.freeze.2.find? name = base.find? name := (h.step .freeze).find?_eq name

theorem Refines.proper_freeze (hbase : base.Proper) : b.freeze.1.Proper := by
  refine Scope.proper_merge fun s hs => ?_
  rcases List.mem_pair.mp hs with rfl | rfl
  · exact Scope.proper_ofList b.live
  · exact h.base_eq ▸ hbase

end

theorem Origin.proper_base (h : origin.source.Proper) : origin.base.Proper := by
  cases origin with
  | empty => exact Scope.proper_empty
  | withBase base => exact h
  | ofScope base =>
    cases base with
    | table => exact Scope.proper_empty
    | empty | merged => exact h

end ScopeBuilder

namespace Scope

open ScopeBuilder (Origin Step)

/-- The scopes that can be made: of a list of entries, of other scopes, or with a builder. -/
inductive Obtainable : Scope α → Prop
  | ofList (entries : List α) : Obtainable (.ofList entries)
  | merge {scopes : List (Scope α)} : (∀ s ∈ scopes, Obtainable s) → Obtainable (.merge scopes)
  | freeze (origin : Origin α) (steps : List (Step α)) : Obtainable origin.source →
      Obtainable (origin.builder.run steps).freeze.1

theorem Obtainable.proper {s : Scope α} (h : s.Obtainable) : s.Proper := by
  induction h with
  | ofList entries => exact proper_ofList entries
  | merge _ ih => exact proper_merge ih
  | freeze origin steps _ ih =>
    exact ((ScopeBuilder.refines_origin ih).run steps).proper_freeze (Origin.proper_base ih)

end Scope

namespace ScopeBuilder

/-- Whatever is entered into a scope and however it began, the builder finds what the list of names has,
in front of its base; it refuses the names that the list has and no others; freezing keeps what is found,
by halving too, and leaves the builder with its base alone. -/
theorem run_refines_association {origin : Origin α} (h : origin.source.Obtainable)
    (steps : List (Step α)) :
    (∀ name, (origin.builder.run steps).find? name =
        ((origin.names.run steps).lookup name).or (origin.base.find? name)) ∧
      (∀ a, ((origin.builder.run steps).enter a).1 =
        match (origin.names.run steps).lookup (Named.name a) with
        | some old => (old, false)
        | none => (a, true)) ∧
      (∀ name, (origin.builder.run steps).freeze.1.find? name =
          (origin.builder.run steps).find? name ∧
        (origin.builder.run steps).freeze.1.search? name = (origin.builder.run steps).find? name) ∧
      ∀ name, (origin.builder.run steps).freeze.2.find? name = origin.base.find? name := by
  have hrefines := (refines_origin h.proper).run steps
  have hfrozen := hrefines.proper_freeze (Origin.proper_base h.proper)
  refine ⟨hrefines.find?_eq, hrefines.enter_eq, fun name => ?_, hrefines.find?_frozen⟩
  rw [hfrozen.search?_eq, find?_freeze]
  exact ⟨rfl, rfl⟩

def twoTables : Scope TypeName := .merge [.ofList [⟨"a", ⟨1⟩⟩], .ofList [⟨"b", ⟨2⟩⟩]]

/-- Entering a name of the base hides it, entering it again does not, and reentering it does. -/
theorem run_refines_association_hiddenName :
    let steps := [.enter ⟨"a", ⟨3⟩⟩, .enter ⟨"a", ⟨4⟩⟩, .reenter ⟨"a", ⟨5⟩⟩]
    let b := (Origin.ofScope twoTables).builder.run steps
    twoTables.Obtainable ∧ b.find? "a" = some ⟨"a", ⟨5⟩⟩ ∧ (b.enter ⟨"b", ⟨6⟩⟩).1 = (⟨"b", ⟨6⟩⟩, true) ∧
      b.freeze.1.search? "a" = some ⟨"a", ⟨5⟩⟩ := by
  have hbase : twoTables.Obtainable := .merge fun s hs => by
    rcases List.mem_pair.mp hs with rfl | rfl <;> exact .ofList _
  have horigin : (Origin.ofScope twoTables).source.Obtainable := hbase
  obtain ⟨hfind, henter, hfreeze, -⟩ := run_refines_association horigin
    [.enter ⟨"a", ⟨3⟩⟩, .enter ⟨"a", ⟨4⟩⟩, .reenter ⟨"a", ⟨5⟩⟩]
  refine ⟨hbase, hfind "a", henter _, (hfreeze "a").2.trans (hfind "a")⟩

end ScopeBuilder
end Binder
