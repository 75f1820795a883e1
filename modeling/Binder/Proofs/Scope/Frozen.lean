import Binder.Proofs.Scope.Lookup

/-! Frozen tables. A table is strictly sorted by name, so that a name can be looked for by halving, and
there is only one table of entries with distinct names. -/
namespace Binder

variable {α : Type} [Named α] {entries entries' sorted : List α} {name : String} {a : α}

theorem firsts_sublist (entries : List α) : (firsts entries).Sublist entries := by
  induction entries with
  | nil => exact .slnil
  | cons a rest ih => exact (List.filter_sublist.trans ih).cons_cons a

theorem nodup_firsts (entries : List α) : ((firsts entries).map Named.name).Nodup := by
  induction entries with
  | nil => exact List.nodup_nil
  | cons a rest ih =>
    rw [firsts, List.map_cons, List.nodup_cons]
    refine ⟨?_, ih.sublist (List.filter_sublist.map _)⟩
    simp

theorem mem_firsts_iff : a ∈ firsts entries ↔ lookup? (Named.name a) entries = some a := by
  rw [← lookup?_firsts]
  exact ⟨lookup?_of_mem (nodup_firsts entries), List.mem_of_find?_eq_some⟩

namespace Scope

variable {above : List α} {middle : α}

theorem firsts_eq_self (h : sorted.Pairwise fun a b => Named.name a < Named.name b) :
    firsts sorted = sorted := by
  induction h with
  | nil => rfl
  | @cons a rest ha _ ih =>
    rw [firsts, ih, List.filter_eq_self.mpr]
    intro b hb
    have hne : Named.name b ≠ Named.name a := (String.ne_of_lt (ha b hb)).symm
    exact decide_eq_true hne

theorem pairwise_arrange (entries : List α) :
    (arrange entries).Pairwise fun a b => Named.name a < Named.name b := by
  have hle := (pairwise_sorted entries).sublist (firsts_sublist _)
  have hne := List.pairwise_map.mp (nodup_firsts
    (entries.mergeSort fun a b => decide (Named.name a ≤ Named.name b)))
  exact hle.imp₂ (fun _ _ hle hne => Std.lt_of_le_of_ne hle hne) hne

/-- There is only one way to sort entries with distinct names. -/
theorem arrange_eq_of_perm (hperm : entries.Perm sorted)
    (hsorted : sorted.Pairwise fun a b => Named.name a < Named.name b) :
    arrange entries = sorted := by
  have hnames : (sorted.map Named.name).Nodup := by
    rw [List.Nodup, List.pairwise_map]
    exact hsorted.imp String.ne_of_lt
  have hmerged : (entries.mergeSort fun a b => decide (Named.name a ≤ Named.name b)).Perm sorted :=
    (List.mergeSort_perm entries _).trans hperm
  have heq := List.Perm.eq_of_pairwise ?_ (pairwise_sorted entries) ?_ hmerged
  · rw [arrange, heq, firsts_eq_self hsorted]
  · intro a b ha hb hab hba
    exact List.inj_on_of_nodup_map hnames (hmerged.mem_iff.mp ha) hb (String.le_antisymm hab hba)
  · exact hsorted.imp Std.le_of_lt

theorem ofList_eq_of_perm (hperm : entries'.Perm entries) (hnames : (entries.map Named.name).Nodup) :
    ofList entries' = ofList entries := by
  have hself := (List.mergeSort_perm entries fun a b => decide (Named.name a ≤ Named.name b)).symm
  have hdistinct : (entries.mergeSort fun a b => decide (Named.name a ≤ Named.name b)).Pairwise
      fun a b => Named.name a ≠ Named.name b :=
    List.pairwise_map.mp ((hself.map Named.name).nodup hnames)
  have hsorted : (entries.mergeSort fun a b => decide (Named.name a ≤ Named.name b)).Pairwise
      fun a b => Named.name a < Named.name b :=
    (pairwise_sorted entries).imp₂ (fun _ _ hle hne => Std.lt_of_le_of_ne hle hne) hdistinct
  have htable : arrange entries' = arrange entries := by
    rw [arrange_eq_of_perm (hperm.trans hself) hsorted, arrange_eq_of_perm hself hsorted]
  rw [ofList, ofList, htable, hperm.isEmpty_eq]

/-- Looks for a name by halving. -/
def bisect? (name : String) (entries : List α) : Option α :=
  match h : entries.drop (entries.length / 2) with
  | [] => none
  | middle :: above =>
      if Named.name middle = name then some middle
      else if name < Named.name middle then bisect? name (entries.take (entries.length / 2))
      else bisect? name above
termination_by entries.length
decreasing_by
  all_goals
    have hlength := congrArg List.length h
    simp only [List.length_drop, List.length_cons, List.length_take] at hlength ⊢
    omega

/-- One entry of a sorted table tells on which side of it a name is. -/
theorem lookup?_split {below : List α}
    (h : (below ++ middle :: above).Pairwise fun a b => Named.name a < Named.name b) (name : String) :
    lookup? name (below ++ middle :: above) =
      if Named.name middle = name then some middle
      else if name < Named.name middle then lookup? name below else lookup? name above := by
  obtain ⟨-, habove, hbelow⟩ := List.pairwise_append.mp h
  have habove := (List.pairwise_cons.mp habove).1
  have hbelow := fun a ha => hbelow a ha middle List.mem_cons_self
  have hnone {l : List α} (hl : ∀ a ∈ l, Named.name a ≠ name) : lookup? name l = none :=
    lookup?_eq_none_iff.mpr hl
  rw [lookup?, List.find?_append, ← lookup?]
  split
  next heq =>
    rw [hnone fun a ha => heq ▸ String.ne_of_lt (hbelow a ha), Option.none_or]
    exact List.find?_cons_of_pos (by simpa using heq)
  next hne =>
    rw [List.find?_cons_of_neg (by simpa using hne), ← lookup?]
    split
    next hlt =>
      rw [hnone fun a ha => (String.ne_of_lt (String.lt_trans hlt (habove a ha))).symm, Option.or_none]
    next hlt =>
      have hgt : Named.name middle < name :=
        Std.lt_of_le_of_ne (String.not_lt.mp hlt) hne
      rw [hnone fun a ha => String.ne_of_lt (String.lt_trans (hbelow a ha) hgt), Option.none_or]

theorem lookup?_halves (h : entries.Pairwise fun a b => Named.name a < Named.name b)
    (hdrop : entries.drop (entries.length / 2) = middle :: above) (name : String) :
    lookup? name entries =
      if Named.name middle = name then some middle
      else if name < Named.name middle then lookup? name (entries.take (entries.length / 2))
      else lookup? name above := by
  have hsplit : entries.take (entries.length / 2) ++ middle :: above = entries := by
    rw [← hdrop, List.take_append_drop]
  rw [← hsplit] at h
  rw [← lookup?_split h, hsplit]

/-- In a sorted table halving finds what is there. -/
theorem bisect?_eq_lookup? (h : entries.Pairwise fun a b => Named.name a < Named.name b) :
    bisect? name entries = lookup? name entries := by
  fun_induction bisect? name entries with
  | case1 entries hnil =>
    have hlength := List.drop_eq_nil_iff.mp hnil
    have hempty : entries = [] := List.length_eq_zero_iff.mp (by omega)
    rw [hempty]
    rfl
  | case2 entries middle above hdrop heq => rw [lookup?_halves h hdrop, if_pos heq]
  | case3 entries middle above hdrop hne hlt ih =>
    rw [lookup?_halves h hdrop, if_neg hne, if_pos hlt, ih (h.sublist (List.take_sublist ..))]
  | case4 entries middle above hdrop hne hlt ih =>
    have habove : above.Pairwise fun a b => Named.name a < Named.name b := by
      have hsuffix := h.sublist (List.drop_sublist (entries.length / 2) entries)
      rw [hdrop] at hsuffix
      exact hsuffix.tail
    rw [lookup?_halves h hdrop, if_neg hne, if_neg hlt, ih habove]

end Scope
end Binder
