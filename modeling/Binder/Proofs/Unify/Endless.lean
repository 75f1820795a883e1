import Binder.Proofs.TypeGraph.Height
import Mathlib.Dynamics.PeriodicPts.Lemmas

/-! Comparisons that never end. Two symbols are compared down to as many levels as there are types,
and one more. If they have not been told apart by then, they never will: the types below each of them
repeat, and two walks through finitely many types that agree for as many steps as there are types agree
forever. -/
namespace Binder

section Walks

variable {α γ : Type} {f : α → α} {c : α → γ} {x y : α} {n m : Nat} {S : Finset α}

/-- The colours that are passed in `n` steps. -/
def word (f : α → α) (c : α → γ) : (n : Nat) → α → List γ
  | 0, _ => []
  | n + 1, x => c x :: word f c n (f x)

theorem take_word (f : α → α) (c : α → γ) (n : Nat) (x : α) :
    (word f c (n + 1) x).take n = word f c n x := by
  induction n generalizing x with
  | zero => rfl
  | succ n ih => rw [word, List.take_succ_cons, ih, word]

theorem word_eq_iff : word f c n x = word f c n y ↔ ∀ i < n, c (f^[i] x) = c (f^[i] y) := by
  induction n generalizing x y with
  | zero => simp [word]
  | succ n ih =>
    rw [word, word, List.cons_eq_cons, ih]
    constructor
    · rintro ⟨hfirst, hrest⟩ (_ | i) hi
      · exact hfirst
      · exact hrest i (by omega)
    · intro h
      exact ⟨h 0 (by omega), fun i hi => h (i + 1) (by omega)⟩

/-- One step more tells no two elements apart that `n` steps do not. -/
def Stable (f : α → α) (c : α → γ) (S : Finset α) (n : Nat) : Prop :=
  ∀ x ∈ S, ∀ y ∈ S, word f c n x = word f c n y → word f c (n + 1) x = word f c (n + 1) y

theorem Stable.succ (hf : ∀ x ∈ S, f x ∈ S) (h : Stable f c S n) : Stable f c S (n + 1) := by
  intro x hx y hy hxy
  obtain ⟨hfirst, hrest⟩ := List.cons_eq_cons.mp hxy
  rw [word, hfirst, h (f x) (hf x hx) (f y) (hf y hy) hrest]
  rfl

theorem card_words [DecidableEq γ] (hS : S.Nonempty) (h : ∀ n < m, ¬ Stable f c S n) :
    m + 1 ≤ (S.image (word f c m)).card := by
  induction m with
  | zero => exact Finset.card_pos.mpr (hS.image _)
  | succ m ih =>
    have hle := ih fun n hn => h n (by omega)
    have himage : S.image (word f c m) = (S.image (word f c (m + 1))).image (List.take m) := by
      rw [Finset.image_image]
      exact Finset.image_congr fun x _ => (take_word f c m x).symm
    have hcard : (S.image (word f c m)).card ≤ (S.image (word f c (m + 1))).card := by
      rw [himage]
      exact Finset.card_image_le
    by_contra hlt
    have heq : ((S.image (word f c (m + 1))).image (List.take m)).card =
        (S.image (word f c (m + 1))).card := by
      rw [← himage]
      omega
    -- no two words have the same beginning, so the beginning tells as much
    have hinj := Finset.injOn_of_card_image_eq heq
    refine h m (by omega) fun x hx y hy hxy => ?_
    apply hinj (Finset.mem_image_of_mem _ hx) (Finset.mem_image_of_mem _ hy)
    rw [take_word, take_word, hxy]

variable (hf : ∀ x ∈ S, f x ∈ S)
include hf

/-- Walks through the elements of a set that pass the same colours for as many steps as the set has
elements pass the same colours forever. -/
theorem colours_agree [DecidableEq γ] (hx : x ∈ S) (hy : y ∈ S)
    (h : ∀ i < S.card, c (f^[i] x) = c (f^[i] y)) (i : Nat) : c (f^[i] x) = c (f^[i] y) := by
  obtain ⟨n, hn, hstable⟩ : ∃ n < S.card, Stable f c S n := by
    by_contra hnone
    have hwords := card_words (m := S.card) ⟨x, hx⟩ fun n hn hs => hnone ⟨n, hn, hs⟩
    have hcard : (S.image (word f c S.card)).card ≤ S.card := Finset.card_image_le
    omega
  have hlater : ∀ m, Stable f c S (n + m) := by
    intro m
    induction m with
    | zero => exact hstable
    | succ m ih => exact ih.succ hf
  have hwords : ∀ m, word f c (n + m) x = word f c (n + m) y := by
    intro m
    induction m with
    | zero => exact word_eq_iff.mpr fun i hi => h i (by omega)
    | succ m ih => exact hlater m x hx y hy ih
  exact word_eq_iff.mp (hwords (i + 1)) i (by omega)

theorem iterate_mem (hx : x ∈ S) (i : Nat) : f^[i] x ∈ S := by
  induction i generalizing x with
  | zero => exact hx
  | succ i ih => exact ih (hf x hx)

/-- A walk through the elements of a set repeats within as many steps as the set has elements. -/
theorem exists_repeat [DecidableEq α] (hx : x ∈ S) :
    ∃ i p, 0 < p ∧ i + p ≤ S.card ∧ f^[i + p] x = f^[i] x := by
  obtain ⟨i, hi, j, hj, hne, heq⟩ := Finset.exists_ne_map_eq_of_card_lt_of_maps_to
    (s := Finset.range (S.card + 1)) (t := S) (f := fun i => f^[i] x) (by simp)
    (fun i _ => iterate_mem hf hx i)
  simp only [Finset.mem_range] at hi hj
  rcases Nat.lt_or_gt_of_ne hne with hlt | hlt
  · exact ⟨i, j - i, by omega, by omega, by rw [Nat.add_sub_cancel' (by omega)]; exact heq.symm⟩
  · exact ⟨j, i - j, by omega, by omega, by rw [Nat.add_sub_cancel' (by omega)]; exact heq⟩

theorem iterate_mem_periodicPts [DecidableEq α] (hx : x ∈ S) (hn : S.card ≤ n) :
    f^[n] x ∈ f.periodicPts := by
  obtain ⟨i, p, hp, hle, hrepeat⟩ := exists_repeat hf hx
  have hi : f.IsPeriodicPt p (f^[i] x) := by
    rw [Function.IsPeriodicPt, Function.IsFixedPt, ← Function.iterate_add_apply, Nat.add_comm, hrepeat]
  have hlater := hi.apply_iterate (n - i)
  rw [← Function.iterate_add_apply, Nat.sub_add_cancel (by omega)] at hlater
  exact Function.mk_mem_periodicPts hp hlater

/-- Wherever a walk leads, it has led within as many steps as there are elements. -/
theorem exists_iterate_eq [DecidableEq α] (hx : x ∈ S) (i : Nat) : ∃ j < S.card, f^[i] x = f^[j] x := by
  obtain ⟨j, p, hp, hle, hrepeat⟩ := exists_repeat hf hx
  induction i using Nat.strong_induction_on with
  | _ i ih =>
    rcases Nat.lt_or_ge i S.card with hi | hi
    · exact ⟨i, hi, rfl⟩
    obtain ⟨k, hk, heq⟩ := ih (i - (j + p) + j) (by omega)
    refine ⟨k, hk, ?_⟩
    rw [← heq, Function.iterate_add_apply f _ j, ← hrepeat, ← Function.iterate_add_apply,
      Nat.sub_add_cancel (by omega)]

/-- Walks that have not met after as many steps as there are elements never meet. -/
theorem walks_apart [DecidableEq α] (hx : x ∈ S) (hy : y ∈ S)
    (h : ∀ i ≤ S.card, f^[i] x ≠ f^[i] y) (i : Nat) : f^[i] x ≠ f^[i] y := by
  induction i with
  | zero => exact h 0 (by omega)
  | succ i ih =>
    rcases Nat.lt_or_ge i S.card with hi | hi
    · exact h (i + 1) hi
    -- both walks go round by now, and on a round trip only one way leads to an element
    intro hmeet
    rw [Function.iterate_succ_apply', Function.iterate_succ_apply'] at hmeet
    exact ih ((Function.bijOn_periodicPts f).injOn (iterate_mem_periodicPts hf hx hi)
      (iterate_mem_periodicPts hf hy hi) hmeet)

end Walks

namespace TypeGraph

variable {g : TypeGraph} {a b e e' : SymbolId} {x y : TypeId} {depth : Nat}

/-- Whether a type is an array, a reference, or neither. -/
def layer? (g : TypeGraph) (t : TypeId) : Option Bool :=
  match g.kind? t with
  | some (.array _ _) => some true
  | some (.reference _) => some false
  | _ => none

/-- The type of the part of a type. -/
def next? (g : TypeGraph) (t : TypeId) : Option TypeId := (g.part? t).bind g.bound?

/-- One level down, or nowhere. -/
def below (g : TypeGraph) (t : TypeId) : TypeId := (g.next? t).getD t

theorem next?_eq_some_iff : g.next? x = some y ↔ ∃ e, g.part? x = some e ∧ g.bound? e = some y :=
  Option.bind_eq_some_iff

theorem below_eq (h : g.next? x = some y) : g.below x = y := by
  rw [below, h, Option.getD_some]

/-- A comparison goes on below two arrays or two references. -/
theorem meet_succ_eq_endless_iff : g.meet (depth + 1) a b = .endless ↔
    ∃ x y e e', g.bound? a = some x ∧ g.bound? b = some y ∧ x ≠ y ∧ g.layer? x = g.layer? y ∧
      g.part? x = some e ∧ g.part? y = some e' ∧ g.meet depth e e' = .endless := by
  constructor
  · intro h
    unfold meet at h
    split at h
    · cases h
    split at h
    · cases h
    · cases h
    · cases h
    next x y hx hy =>
      split at h
      · cases h
      next hne =>
        split at h
        next hkx hky =>
          exact ⟨x, y, _, _, hx, hy, hne, by simp [layer?, hkx, hky], part?_array hkx,
            part?_array hky, h⟩
        next hkx hky =>
          exact ⟨x, y, _, _, hx, hy, hne, by simp [layer?, hkx, hky], part?_reference hkx,
            part?_reference hky, h⟩
        next => cases h
  · rintro ⟨x, y, e, e', hx, hy, hne, hlayer, he, he', h⟩
    have hab : a ≠ b := by
      rintro rfl
      exact hne (Option.some.inj (hx.symm.trans hy))
    rw [meet, if_neg hab, hx, hy]
    simp only [if_neg hne]
    rcases part?_eq_some_iff.mp he with ⟨_, hkx⟩ | hkx <;>
      rcases part?_eq_some_iff.mp he' with ⟨_, hky⟩ | hky <;>
      simp_all [layer?]

/-- Two types side by side, and what is below them for `n` levels. -/
structure Abreast (g : TypeGraph) (n : Nat) (x y : TypeId) : Prop where
  first : ∀ i < n, g.next? (g.below^[i] x) = some (g.below^[i + 1] x)
  second : ∀ i < n, g.next? (g.below^[i] y) = some (g.below^[i + 1] y)
  apart : ∀ i ≤ n, g.below^[i] x ≠ g.below^[i] y
  layers : ∀ i ≤ n, g.layer? (g.below^[i] x) = g.layer? (g.below^[i] y)

theorem abreast_of_meet (h : g.meet (depth + 1) a b = .endless) :
    ∃ x y, g.bound? a = some x ∧ g.bound? b = some y ∧ g.Abreast depth x y := by
  induction depth generalizing a b with
  | zero =>
    obtain ⟨x, y, e, e', hx, hy, hne, hlayer, -⟩ := meet_succ_eq_endless_iff.mp h
    refine ⟨x, y, hx, hy, by omega, by omega, ?_, ?_⟩ <;>
    · intro i hi
      obtain rfl : i = 0 := by omega
      assumption
  | succ depth ih =>
    obtain ⟨x, y, e, e', hx, hy, hne, hlayer, he, he', hmeet⟩ := meet_succ_eq_endless_iff.mp h
    obtain ⟨x', y', hx', hy', habreast⟩ := ih hmeet
    have hnext : g.next? x = some x' := next?_eq_some_iff.mpr ⟨e, he, hx'⟩
    have hnext' : g.next? y = some y' := next?_eq_some_iff.mpr ⟨e', he', hy'⟩
    have hshift (i : Nat) : g.below^[i + 1] x = g.below^[i] x' := by
      rw [Function.iterate_succ_apply, below_eq hnext]
    have hshift' (i : Nat) : g.below^[i + 1] y = g.below^[i] y' := by
      rw [Function.iterate_succ_apply, below_eq hnext']
    refine ⟨x, y, hx, hy, ?_, ?_, ?_, ?_⟩
    · rintro (_ | i) hi
      · exact hnext.trans (by rw [hshift]; rfl)
      · rw [hshift, hshift]
        exact habreast.first i (by omega)
    · rintro (_ | i) hi
      · exact hnext'.trans (by rw [hshift']; rfl)
      · rw [hshift', hshift']
        exact habreast.second i (by omega)
    · rintro (_ | i) hi
      · exact hne
      · rw [hshift, hshift']
        exact habreast.apart i (by omega)
    · rintro (_ | i) hi
      · exact hlayer
      · rw [hshift, hshift']
        exact habreast.layers i (by omega)

theorem meet_of_abreast (hx : g.bound? a = some x) (hy : g.bound? b = some y)
    (h : g.Abreast depth x y) : g.meet depth a b = .endless := by
  induction depth generalizing a b x y with
  | zero => rfl
  | succ depth ih =>
    obtain ⟨e, he, hbound⟩ := next?_eq_some_iff.mp (h.first 0 (by omega))
    obtain ⟨e', he', hbound'⟩ := next?_eq_some_iff.mp (h.second 0 (by omega))
    refine meet_succ_eq_endless_iff.mpr ⟨x, y, e, e', hx, hy, h.apart 0 (by omega),
      h.layers 0 (by omega), he, he', ih hbound hbound' ?_⟩
    exact ⟨fun i hi => h.first (i + 1) (by omega), fun i hi => h.second (i + 1) (by omega),
      fun i hi => h.apart (i + 1) (by omega), fun i hi => h.layers (i + 1) (by omega)⟩

def typeIds (g : TypeGraph) : Finset TypeId := (Finset.range g.types.size).image TypeId.mk

theorem mem_typeIds {t : TypeId} : t ∈ g.typeIds ↔ g.HasType t := by
  simp only [typeIds, Finset.mem_image, Finset.mem_range, HasType]
  constructor
  · rintro ⟨i, hi, rfl⟩
    exact hi
  · intro h
    exact ⟨t.index, h, rfl⟩

theorem card_typeIds (g : TypeGraph) : g.typeIds.card = g.types.size := by
  rw [typeIds, Finset.card_image_of_injective _ fun i j h => congrArg TypeId.index h,
    Finset.card_range]

/-- A walk that goes on for as long as there are types goes on forever. -/
theorem next?_forever (hbelow : ∀ t ∈ g.typeIds, g.below t ∈ g.typeIds) (hx : x ∈ g.typeIds)
    (h : ∀ i < g.types.size, g.next? (g.below^[i] x) = some (g.below^[i + 1] x)) (i : Nat) :
    g.next? (g.below^[i] x) = some (g.below^[i + 1] x) := by
  obtain ⟨j, hj, heq⟩ := exists_iterate_eq hbelow hx i
  rw [Function.iterate_succ_apply', heq, ← Function.iterate_succ_apply' g.below]
  exact h j (card_typeIds g ▸ hj)

/-- The limit on levels does not cut a comparison short: what is not decided within it is not decided at
any depth. -/
theorem meet_eq_endless (hbound : ∀ {s t}, g.bound? s = some t → g.HasType t)
    (h : g.meet g.nestingDepth a b = .endless) (depth : Nat) : g.meet depth a b = .endless := by
  obtain ⟨x, y, hx, hy, habreast⟩ := abreast_of_meet h
  have hmemx : x ∈ g.typeIds := mem_typeIds.mpr (hbound hx)
  have hmemy : y ∈ g.typeIds := mem_typeIds.mpr (hbound hy)
  have hbelow : ∀ t ∈ g.typeIds, g.below t ∈ g.typeIds := by
    intro t ht
    cases hnext : g.next? t with
    | none => rwa [below, hnext]
    | some u =>
      obtain ⟨e, -, hu⟩ := next?_eq_some_iff.mp hnext
      rw [below_eq hnext]
      exact mem_typeIds.mpr (hbound hu)
  have hcard := card_typeIds g
  exact meet_of_abreast hx hy
    { first := fun i _ => next?_forever hbelow hmemx habreast.first i
      second := fun i _ => next?_forever hbelow hmemy habreast.second i
      apart := fun i _ => walks_apart hbelow hmemx hmemy (fun i hi => habreast.apart i (hcard ▸ hi)) i
      layers := fun i _ => colours_agree (c := g.layer?) hbelow hmemx hmemy
        (fun i hi => habreast.layers i (Nat.le_of_lt (hcard ▸ hi))) i }

end TypeGraph
end Binder
