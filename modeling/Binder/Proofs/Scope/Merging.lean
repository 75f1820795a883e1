import Binder.Proofs.Scope.Building

/-! Scopes one after the other. Merging leaves out empty scopes and puts the tables of the others side by
side, so that a scope is either empty, a table, or two or more tables of which the first one that knows
a name decides. -/
namespace Binder.Scope

variable {α : Type} [Named α] {s : Scope α} {name : String} {a : α}

/-- Tables are strictly sorted and have entries, and only tables are merged, two at least. -/
def Valid : Scope α → Prop
  | .empty => True
  | .table entries => entries ≠ [] ∧ entries.Pairwise fun a b => Named.name a < Named.name b
  | .merged parts => 2 ≤ parts.length ∧ ∀ part ∈ parts, ∃ entries, part = .table entries ∧
      entries ≠ [] ∧ entries.Pairwise fun a b => Named.name a < Named.name b

theorem Proper.valid (h : s.Proper) : s.Valid := by
  have hofTables (ts : List (List α))
      (hts : ∀ t ∈ ts, t ≠ [] ∧ t.Pairwise fun a b => Named.name a < Named.name b) :
      (ofTables ts).Valid := by
    rw [ofTables, merge, flatMap_parts_table]
    rcases ts with _ | ⟨t, _ | ⟨t', ts⟩⟩
    · trivial
    · exact hts t List.mem_cons_self
    · refine ⟨by simp, fun part hpart => ?_⟩
      obtain ⟨entries, hentries, rfl⟩ : ∃ entries ∈ t :: t' :: ts, table entries = part :=
        List.mem_map.mp hpart
      exact ⟨entries, rfl, hts entries hentries⟩
  rw [h.flat]
  exact hofTables s.tables h.tables

theorem find?_eq_lookup? (s : Scope α) (name : String) : s.find? name = lookup? name s.tables.flatten := by
  rw [find?_eq_findSome?, lookup?, List.find?_flatten]
  rfl

/-- Only where tables are merged there may be entries to leave out. -/
theorem Proper.entries_eq (h : s.Proper) : s.entries = firsts s.tables.flatten := by
  have hall (parts : List (Scope α)) (hparts : ∀ part ∈ parts, ∃ entries, part = table entries) :
      allEntries parts = (allTables parts).flatten := by
    induction parts with
    | nil => rfl
    | cons part rest ih =>
      obtain ⟨entries, rfl⟩ := hparts part List.mem_cons_self
      rw [allEntries, allTables, ih fun p hp => hparts p (List.mem_cons_of_mem _ hp)]
      simp [Scope.entries, Scope.tables]
  have hvalid := h.valid
  cases s with
  | empty => rfl
  | table entries =>
    rw [Scope.tables, List.flatten_singleton, firsts_eq_self hvalid.2, Scope.entries]
  | merged parts =>
    rw [Scope.entries, Scope.tables, hall parts]
    intro part hpart
    obtain ⟨entries, hpart, -⟩ := hvalid.2 part hpart
    exact ⟨entries, hpart⟩

theorem Proper.mem_entries_iff (h : s.Proper) : a ∈ s.entries ↔ s.find? (Named.name a) = some a := by
  rw [h.entries_eq, mem_firsts_iff, find?_eq_lookup?]

theorem Proper.mem_names_iff (h : s.Proper) : name ∈ s.names ↔ s.contains name = true := by
  rw [names, List.mem_map, contains, Option.isSome_iff_exists]
  constructor
  · rintro ⟨a, ha, rfl⟩
    exact ⟨a, h.mem_entries_iff.mp ha⟩
  · rintro ⟨a, ha⟩
    have hname : Named.name a = name := by
      rw [find?_eq_lookup?] at ha
      simpa using List.find?_some ha
    exact ⟨a, h.mem_entries_iff.mpr (hname.symm ▸ ha), hname⟩

theorem Proper.nodup_names (h : s.Proper) : s.names.Nodup := by
  rw [names, h.entries_eq]
  exact nodup_firsts _

/-- A scope with a table finds the first name of it. -/
theorem Proper.isEmpty_iff (h : s.Proper) : s.isEmpty = true ↔ ∀ name, s.find? name = none := by
  constructor
  · intro hempty name
    cases s with
    | empty => rfl
    | table | merged => cases hempty
  · intro hnone
    have htables : s.tables = [] := by
      by_contra hne
      obtain ⟨t, ht⟩ := List.exists_mem_of_ne_nil _ hne
      obtain ⟨a, ha⟩ := List.exists_mem_of_ne_nil t (h.tables t ht).1
      have habsent := hnone (Named.name a)
      rw [find?_eq_lookup?, lookup?_eq_none_iff] at habsent
      exact habsent a (List.mem_flatten_of_mem ht ha) rfl
    rw [h.flat, htables]
    rfl

omit [Named α] in
theorem merge_assoc {t u : Scope α} (hs : s.Flat) (ht : t.Flat) (hu : u.Flat) :
    merge [merge [s, t], u] = merge [s, merge [t, u]] := by
  have hpair {s t : Scope α} (hs : s.Flat) (ht : t.Flat) :
      (merge [s, t]).Flat ∧ merge [s, t] = ofTables (s.tables ++ t.tables) := by
    have hboth : ∀ x ∈ [s, t], x.Flat := by simp [hs, ht]
    exact ⟨flat_merge hboth, (merge_eq_ofTables hboth).trans (by simp)⟩
  rw [(hpair (hpair hs ht).1 hu).2, (hpair hs (hpair ht hu).1).2, tables_merge, tables_merge]
  simp

omit [Named α] in
theorem merge_singleton (h : s.Flat) : merge [s] = s := by
  rw [merge_eq_ofTables (by simp [h]), List.flatMap_singleton, ← h]

/-- However a scope was made, it is empty, a table, or two or more tables; it can be searched by halving;
each visible name is listed once, with the entry that is found under it; only the empty scope finds
nothing; and merging it with others, in whatever groups, puts what it finds first. -/
theorem obtainable_form_and_meaning (h : s.Obtainable) :
    s.Valid ∧ (∀ name, s.search? name = s.find? name) ∧
      s.names.Nodup ∧ (∀ name, name ∈ s.names ↔ s.contains name = true) ∧
      (∀ a, a ∈ s.entries ↔ s.find? (Named.name a) = some a) ∧
      (s.isEmpty = true ↔ ∀ name, s.find? name = none) ∧
      (∀ scopes : List (Scope α), ∀ name,
        (merge scopes).find? name = scopes.findSome? fun t => t.find? name) ∧
      (∀ t u : Scope α, t.Obtainable → u.Obtainable →
        merge [merge [s, t], u] = merge [s, merge [t, u]]) ∧
      merge [empty, s] = s ∧ merge [s, empty] = s := by
  have hs := h.proper
  refine ⟨hs.valid, hs.search?_eq, hs.nodup_names, fun _ => hs.mem_names_iff, fun _ => hs.mem_entries_iff,
    hs.isEmpty_iff, find?_merge_eq, fun t u ht hu => ?_, ?_, ?_⟩
  · exact merge_assoc hs.flat ht.proper.flat hu.proper.flat
  · exact merge_singleton hs.flat
  · exact merge_singleton hs.flat

def rivals : Scope TypeName := .merge [.ofList [⟨"a", ⟨1⟩⟩], .ofList [⟨"b", ⟨2⟩⟩, ⟨"a", ⟨3⟩⟩]]

/-- Of two entries under one name, the one in front is visible. -/
theorem obtainable_form_and_meaning_rivals :
    rivals.Obtainable ∧ rivals.Valid ∧ rivals.isEmpty = false ∧
      rivals.find? "a" = some ⟨"a", ⟨1⟩⟩ ∧ ⟨"a", ⟨1⟩⟩ ∈ rivals.entries ∧ ⟨"a", ⟨3⟩⟩ ∉ rivals.entries := by
  have hrivals : rivals.Obtainable := .merge fun s hs => by
    rcases List.mem_pair.mp hs with rfl | rfl <;> exact .ofList _
  obtain ⟨hvalid, -, -, -, hentries, hempty, hmerge, -⟩ := obtainable_form_and_meaning hrivals
  have hfind : rivals.find? "a" = some ⟨"a", ⟨1⟩⟩ := by
    rw [rivals, hmerge, List.findSome?_cons, find?_ofList]
    rfl
  refine ⟨hrivals, hvalid, ?_, hfind, (hentries _).mpr hfind, fun hmem => ?_⟩
  · rw [Bool.eq_false_iff, ne_eq, hempty]
    intro hnone
    have habsent := hnone "a"
    rw [hfind] at habsent
    cases habsent
  · have hother := (hentries _).mp hmem
    rw [show Named.name (⟨"a", ⟨3⟩⟩ : TypeName) = "a" from rfl, hfind] at hother
    cases hother

end Binder.Scope
