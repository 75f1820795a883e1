import Binder.Module.Resolve
import Mathlib.Data.List.Nodup
import Mathlib.Logic.Relation

/-! The builders of nested types form a forest: each has at most one builder around it, which was
opened before it. The builders to be finished together with one are those within it, each once. -/
namespace Binder

open Relation (ReflTransGen)

def nestedOf (bs : Array TypeBuilder) (i : BuilderId) : List BuilderId :=
  (((bs[i.index]?).map TypeBuilder.nested).getD []).map Prod.snd

def NestedIn (bs : Array TypeBuilder) (k i : BuilderId) : Prop := k ∈ nestedOf bs i

/-- One builder is another or nested in it, however deep. -/
abbrev Within (bs : Array TypeBuilder) (y r : BuilderId) : Prop := ReflTransGen (NestedIn bs) y r

structure Forest (bs : Array TypeBuilder) : Prop where
  later : ∀ {k i}, NestedIn bs k i → i.index < k.index ∧ k.index < bs.size
  parent : ∀ {k i j}, NestedIn bs k i → NestedIn bs k j → i = j
  once : ∀ i, (nestedOf bs i).Nodup

variable {bs bs' : Array TypeBuilder} {i k r x y : BuilderId}

theorem nestedIn_of_mem {b : TypeBuilder} {x : SymbolId × BuilderId} (hb : bs[i.index]? = some b)
    (hx : x ∈ b.nested) : NestedIn bs x.2 i := by
  rw [NestedIn, nestedOf, hb]
  exact List.mem_map_of_mem hx

theorem within_congr (h : nestedOf bs' = nestedOf bs) : Within bs' y r ↔ Within bs y r := by
  have heq : NestedIn bs' = NestedIn bs := by
    funext k i
    rw [NestedIn, NestedIn, h]
  rw [Within, Within, heq]

theorem nestedIn_nest (h : ∀ j, nestedOf bs' j = if j = i then nestedOf bs j ++ [k] else nestedOf bs j)
    (x j : BuilderId) : NestedIn bs' x j ↔ NestedIn bs x j ∨ x = k ∧ j = i := by
  rw [NestedIn, h]
  split
  next hj =>
    rw [List.mem_append, List.mem_singleton]
    exact or_congr_right (and_iff_left hj).symm
  next hj => exact ⟨.inl, fun hx => hx.resolve_right fun hx => hj hx.2⟩

theorem within_nest (h : ∀ x j, NestedIn bs' x j ↔ NestedIn bs x j ∨ x = k ∧ j = i) :
    Within bs' y r ↔ Within bs y r ∨ Within bs y k ∧ Within bs i r := by
  have hmono {a b : BuilderId} (hw : Within bs a b) : Within bs' a b :=
    ReflTransGen.mono (fun x j hn => (h x j).mpr (.inl hn)) _ _ hw
  refine ⟨fun hw => ?_, ?_⟩
  · induction hw with
    | refl => exact .inl .refl
    | tail _ hn ih =>
      rcases (h _ _).mp hn with hn | ⟨rfl, rfl⟩
      · exact ih.imp (fun hw => hw.tail hn) fun hw => ⟨hw.1, hw.2.tail hn⟩
      · exact .inr ⟨ih.elim id And.left, .refl⟩
  · rintro (hw | ⟨hyk, hir⟩)
    · exact hmono hw
    · exact ((hmono hyk).tail ((h k i).mpr (.inr ⟨rfl, rfl⟩))).trans (hmono hir)

namespace Forest

theorem congr (h : Forest bs) (hnested : nestedOf bs' = nestedOf bs) (hsize : bs.size ≤ bs'.size) :
    Forest bs' where
  later hn := by
    rw [NestedIn, hnested] at hn
    exact ⟨(h.later hn).1, Nat.lt_of_lt_of_le (h.later hn).2 hsize⟩
  parent hi hj := by
    rw [NestedIn, hnested] at hi hj
    exact h.parent hi hj
  once i := hnested ▸ h.once i

theorem nest (h : Forest bs) (hsize : bs'.size = bs.size) (hik : i.index < k.index)
    (hk : k.index < bs.size) (hroot : ∀ j, ¬ NestedIn bs k j)
    (hnest : ∀ j, nestedOf bs' j = if j = i then nestedOf bs j ++ [k] else nestedOf bs j) :
    Forest bs' := by
  have hcases {x j : BuilderId} := (nestedIn_nest hnest x j).mp
  refine ⟨fun hn => ?_, fun hx hy => ?_, fun j => ?_⟩
  · rw [hsize]
    rcases hcases hn with hn | ⟨rfl, rfl⟩
    · exact h.later hn
    · exact ⟨hik, hk⟩
  · rcases hcases hx with hx | ⟨rfl, rfl⟩ <;> rcases hcases hy with hy | ⟨heq, rfl⟩
    · exact h.parent hx hy
    · exact absurd (heq ▸ hx) (hroot _)
    · exact absurd hy (hroot _)
    · rfl
  · rw [hnest]
    split
    · refine List.Nodup.append (h.once j) (List.nodup_singleton k) ?_
      intro x hx hxk
      rw [List.mem_singleton] at hxk
      subst hxk
      exact hroot j hx
    · exact h.once j

theorem le_of_within (h : Forest bs) (hw : Within bs y r) : r.index ≤ y.index := by
  induction hw with
  | refl => exact Nat.le_refl _
  | tail _ hn ih => exact Nat.le_trans (Nat.le_of_lt (h.later hn).1) ih

theorem lt_size_of_within (h : Forest bs) (hw : Within bs y r) (hr : r.index < bs.size) :
    y.index < bs.size := by
  rcases ReflTransGen.cases_head hw with rfl | ⟨i, hn, -⟩
  · exact hr
  · exact (h.later hn).2

/-- Two builders around a third are one within the other. -/
theorem comparable (h : Forest bs) (hx : Within bs k x) (hy : Within bs k y) :
    Within bs x y ∨ Within bs y x :=
  ReflTransGen.total_of_right_unique (fun _ _ _ hi hj => h.parent hi hj) hx hy

theorem eq_of_within (hr : ∀ i, ¬ NestedIn bs r i) (hw : Within bs r x) : r = x := by
  rcases ReflTransGen.cases_head hw with rfl | ⟨i, hn, -⟩
  · rfl
  · exact absurd hn (hr i)

theorem root_unique (h : Forest bs) (hx : ∀ i, ¬ NestedIn bs x i) (hy : ∀ i, ¬ NestedIn bs y i)
    (hkx : Within bs k x) (hky : Within bs k y) : x = y := by
  rcases h.comparable hkx hky with hw | hw
  · exact eq_of_within hx hw
  · exact (eq_of_within hy hw).symm

/-- Nothing is within two builders that are nested side by side. -/
theorem sibling_unique (h : Forest bs) (hx : NestedIn bs x i) (hy : NestedIn bs y i)
    (hkx : Within bs k x) (hky : Within bs k y) : x = y := by
  have hdown {a b : BuilderId} (ha : NestedIn bs a i) (hb : NestedIn bs b i)
      (hw : Within bs a b) : a = b := by
    rcases ReflTransGen.cases_head hw with rfl | ⟨j, hn, hj⟩
    · rfl
    · cases h.parent ha hn
      have hle := h.le_of_within hj
      have hlt := (h.later hb).1
      omega
  rcases h.comparable hkx hky with hw | hw
  · exact hdown hx hy hw
  · exact (hdown hy hx hw).symm

end Forest

namespace Build

variable {depth : Nat}

theorem innermostFirst_succ (bs : Array TypeBuilder) (depth : Nat) (r : BuilderId) :
    innermostFirst bs (depth + 1) r = (nestedOf bs r).flatMap (innermostFirst bs depth) ++ [r] := by
  simp only [innermostFirst, nestedOf, List.flatMap_map]

theorem within_of_mem_innermostFirst (h : y ∈ innermostFirst bs depth r) :
    Within bs y r := by
  induction depth generalizing r with
  | zero => cases h
  | succ depth ih =>
    rw [innermostFirst_succ, List.mem_append, List.mem_singleton] at h
    rcases h with hy | rfl
    · obtain ⟨k, hn, hy⟩ := List.mem_flatMap.mp hy
      exact (ih hy).tail hn
    · exact .refl

/-- No builder is nested deeper than there are builders opened after the outermost. -/
theorem mem_innermostFirst (h : Forest bs) (hd : bs.size < r.index + depth + 1)
    (hr : r.index < bs.size) (hw : Within bs y r) : y ∈ innermostFirst bs depth r := by
  induction depth generalizing r with
  | zero => omega
  | succ depth ih =>
    rw [innermostFirst_succ, List.mem_append, List.mem_singleton]
    rcases ReflTransGen.cases_tail hw with rfl | ⟨k, hk, hn⟩
    · exact .inr rfl
    · obtain ⟨hlt, hsize⟩ := h.later hn
      exact .inl (List.mem_flatMap.mpr ⟨k, hn, ih (by omega) hsize hk⟩)

theorem nodup_innermostFirst (h : Forest bs) (depth : Nat) (r : BuilderId) :
    (innermostFirst bs depth r).Nodup := by
  induction depth generalizing r with
  | zero => exact List.nodup_nil
  | succ depth ih =>
    rw [innermostFirst_succ]
    refine List.Nodup.append ?_ (List.nodup_singleton r) ?_
    · refine List.nodup_flatMap.mpr ⟨fun k _ => ih k, ?_⟩
      refine (h.once r).imp_of_mem fun hx hy hne z hzx hzy => hne ?_
      exact h.sibling_unique hx hy (within_of_mem_innermostFirst hzx)
        (within_of_mem_innermostFirst hzy)
    · intro z hz hzr
      rw [List.mem_singleton] at hzr
      subst hzr
      obtain ⟨k, hk, hz⟩ := List.mem_flatMap.mp hz
      have hle := h.le_of_within (within_of_mem_innermostFirst hz)
      have hlt := (h.later hk).1
      omega

end Build
end Binder
