import Binder.Proofs.Tree.Notes
import Binder.Proofs.Tree.Numbering
import Mathlib.Logic.Equiv.Basic

/-! Trees that differ in the numbers of their nodes alone. If all nodes of a tree have numbers of their
own, a tree with the same nodes at the same places comes of giving the nodes other numbers. -/
namespace Binder.Tree

/-- A mark with another number. -/
def Mark.renumber (ν : NodeId → NodeId) (m : Mark) : Mark := ⟨ν m.id, m.span⟩

/-- What holds of any numbering that takes the nodes of a list to those of another one. -/
def Places (P : (NodeId → NodeId) → Prop) (xs ys : List Expr) : Prop :=
  ∃ pairs : List (NodeId × NodeId), pairs.map Prod.fst = xs.map Node.id ∧
    pairs.map Prod.snd = ys.map Node.id ∧ ∀ ν, (∀ p ∈ pairs, ν p.1 = p.2) → P ν

variable {P Q : (NodeId → NodeId) → Prop} {x y : Expr} {xs ys xs' ys' : List Expr}

theorem Places.nil (h : ∀ ν, P ν) : Places P [] [] := ⟨[], rfl, rfl, fun ν _ => h ν⟩

theorem Places.append (h : Places P xs ys) (h' : Places Q xs' ys') :
    Places (fun ν => P ν ∧ Q ν) (xs ++ xs') (ys ++ ys') := by
  obtain ⟨pairs, hfst, hsnd, hP⟩ := h
  obtain ⟨pairs', hfst', hsnd', hQ⟩ := h'
  refine ⟨pairs ++ pairs', by simp [hfst, hfst'], by simp [hsnd, hsnd'], fun ν hν => ⟨?_, ?_⟩⟩
  · exact hP ν fun p hp => hν p (List.mem_append_left _ hp)
  · exact hQ ν fun p hp => hν p (List.mem_append_right _ hp)

theorem Places.mono (h : Places P xs ys) (hPQ : ∀ ν, P ν → Q ν) : Places Q xs ys := by
  obtain ⟨pairs, hfst, hsnd, hP⟩ := h
  exact ⟨pairs, hfst, hsnd, fun ν hν => hPQ ν (hP ν hν)⟩

theorem Places.cons (h : Places P xs ys) (hspan : x.note.span = y.note.span)
    (hQ : ∀ ν, x.note.renumber ν = y.note → P ν → Q ν) : Places Q (x :: xs) (y :: ys) := by
  obtain ⟨pairs, hfst, hsnd, hP⟩ := h
  refine ⟨(x.id, y.id) :: pairs, by simp [hfst], by simp [hsnd], fun ν hν => ?_⟩
  refine hQ ν ?_ (hP ν fun p hp => hν p (List.mem_cons_of_mem _ hp))
  have hid : ν x.note.id = y.note.id := hν _ List.mem_cons_self
  rw [Mark.renumber, hid, hspan]

/-- The second tree is the first one with other numbers. -/
def Renumbered (x y : Expr) : Prop :=
  Places (fun ν => x.map (Mark.renumber ν) = y) x.preorder y.preorder

theorem places_of_forall₂ (h : List.Forall₂ Renumbered xs ys) :
    Places (fun ν => mapNodes (Mark.renumber ν) xs = ys) (preorderOf xs) (preorderOf ys) := by
  induction h with
  | nil => exact .nil fun _ => rfl
  | cons hx _ ih => exact (hx.append ih).mono fun ν hν => congrArg₂ _ hν.1 hν.2

/-- Pairs that use no number twice on either side are part of a permutation of all numbers. -/
theorem exists_perm (pairs : List (NodeId × NodeId)) (hfst : (pairs.map Prod.fst).Nodup)
    (hsnd : (pairs.map Prod.snd).Nodup) :
    ∃ ν : Equiv.Perm NodeId, ∀ p ∈ pairs, ν p.1 = p.2 := by
  induction pairs with
  | nil => exact ⟨.refl _, nofun⟩
  | cons p pairs ih =>
    obtain ⟨hp, hfst⟩ := List.nodup_cons.mp hfst
    obtain ⟨hp', hsnd⟩ := List.nodup_cons.mp hsnd
    obtain ⟨ν, hν⟩ := ih hfst hsnd
    -- The number that the first node had so far is exchanged for the one that it should have.
    refine ⟨ν.trans (Equiv.swap (ν p.1) p.2), fun q hq => ?_⟩
    rcases List.mem_cons.mp hq with rfl | hq
    · exact Equiv.swap_apply_left ..
    · rw [Equiv.trans_apply, hν q hq]
      apply Equiv.swap_apply_of_ne_of_ne
      · rw [← hν q hq, ne_eq, ν.injective.eq_iff]
        exact fun heq => hp (heq ▸ List.mem_map_of_mem hq)
      · exact fun heq => hp' (heq ▸ List.mem_map_of_mem hq)

theorem nodup_of_count_le_one (h : ∀ n, count n xs ≤ 1) : (xs.map Node.id).Nodup := by
  rw [List.nodup_iff_count_le_one]
  intro n
  rw [List.count, List.countP_map]
  refine Nat.le_trans (Nat.le_of_eq ?_) (h n)
  rw [count]
  congr 1

/-- Trees that differ in their numbers alone come from each other by exchanging numbers. -/
theorem exists_renumbering (h : List.Forall₂ Renumbered xs ys)
    (hxs : ∀ n, count n (preorderOf xs) ≤ 1) (hys : ∀ n, count n (preorderOf ys) ≤ 1) :
    ∃ ν : Equiv.Perm NodeId, ys = xs.map (Node.map (Mark.renumber ν)) := by
  obtain ⟨pairs, hfst, hsnd, hP⟩ := places_of_forall₂ h
  obtain ⟨ν, hν⟩ := exists_perm pairs (hfst ▸ nodup_of_count_le_one hxs)
    (hsnd ▸ nodup_of_count_le_one hys)
  refine ⟨ν, ?_⟩
  rw [← mapNodes_eq]
  exact (hP ν hν).symm

end Binder.Tree
