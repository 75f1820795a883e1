import Binder.Prelude
import Binder.Proofs.TypeGraph.Height

/-! The two comparisons of types. Unification and the test for the same type walk down arrays and
references side by side. On types that are known all the way down neither binds anything, and they
differ in one respect only: unification does not look at the sizes of arrays. -/
namespace Binder

/-- An array without its size; any other kind of type as it is. -/
def TypeKind.unsized : TypeKind → TypeKind
  | .array elements _ => .array elements none
  | kind => kind

namespace TypeGraph

variable {g : TypeGraph} {a b e : SymbolId} {t v : TypeId} {n m depth : Nat}

/-- The graph with the sizes of all its arrays left out. -/
def unsized (g : TypeGraph) : TypeGraph :=
  { g with types := g.types.map fun d => { d with kind := d.kind.unsized } }

@[simp] theorem bound?_unsized : g.unsized.bound? a = g.bound? a := rfl

@[simp] theorem nestingDepth_unsized : g.unsized.nestingDepth = g.nestingDepth := by
  simp [nestingDepth, unsized]

@[simp] theorem kind?_unsized : g.unsized.kind? t = (g.kind? t).map TypeKind.unsized := by
  simp [kind?, def?, unsized, Function.comp_def]

/-- The sizes of the arrays within a type, from the outside in, down to at most `depth` levels. -/
def sizesWithin (g : TypeGraph) : (depth : Nat) → SymbolId → List (Option Nat)
  | 0, _ => []
  | depth + 1, a =>
      match (g.bound? a).bind g.kind? with
      | some (.array elements size) => size :: g.sizesWithin depth elements
      | some (.reference referent) => g.sizesWithin depth referent
      | _ => []

def sizes (g : TypeGraph) (a : SymbolId) : List (Option Nat) := g.sizesWithin g.nestingDepth a

/-- A symbol whose type is known and has no part, or has one that is known in turn, `n` levels down. -/
inductive Reaches (g : TypeGraph) : SymbolId → Nat → Prop
  | plain {a : SymbolId} {t : TypeId} : g.bound? a = some t → g.part? t = none → Reaches g a 0
  | made {a e : SymbolId} {t : TypeId} {n : Nat} :
      g.bound? a = some t → g.part? t = some e → Reaches g e n → Reaches g a (n + 1)

/-- No unbound symbol is met on the way down a type, which comes to an end. -/
def Complete (g : TypeGraph) (a : SymbolId) : Prop := ∃ n, g.Reaches a n

namespace Reaches

theorem bound (h : g.Reaches a n) : ∃ t, g.bound? a = some t := by
  cases h with
  | plain ha _ => exact ⟨_, ha⟩
  | made ha _ _ => exact ⟨_, ha⟩

theorem part (h : g.Reaches a n) (ha : g.bound? a = some t) (ht : g.part? t = some e) :
    ∃ m, n = m + 1 ∧ g.Reaches e m := by
  cases h with
  | plain ha' hnone =>
    cases ha.symm.trans ha'
    cases ht.symm.trans hnone
  | made ha' ht' he =>
    cases ha.symm.trans ha'
    cases ht.symm.trans ht'
    exact ⟨_, rfl, he⟩

theorem unique (h : g.Reaches a n) (h' : g.Reaches a m) : n = m := by
  induction h generalizing m with
  | plain ha hnone =>
    cases h' with
    | plain => rfl
    | made ha' ht _ =>
      cases ha.symm.trans ha'
      cases ht.symm.trans hnone
  | made ha ht _ ih =>
    obtain ⟨k, rfl, hk⟩ := h'.part ha ht
    rw [ih hk]

/-- The types on the way down differ from each other, so there are no more levels than types. -/
theorem le_size (h : g.Reaches a n) : n ≤ g.types.size := by
  classical
  -- the types of the graph whose parts lie less than `n` levels above the end
  let above (n : Nat) : Finset Nat := (Finset.range g.types.size).filter fun i =>
    ∃ e m, g.part? ⟨i⟩ = some e ∧ g.Reaches e m ∧ m < n
  have hcard : n ≤ (above n).card := by
    induction h with
    | plain => exact Nat.zero_le _
    | @made a e t n _ ht he ih =>
      refine Nat.lt_of_le_of_lt ih (Finset.card_lt_card ?_)
      rw [Finset.ssubset_iff_of_subset]
      · have hin : t.index < g.types.size := HasType.of_part? ht
        refine ⟨t.index, ?_, ?_⟩
        · exact Finset.mem_filter.mpr ⟨Finset.mem_range.mpr hin, e, n, ht, he, Nat.lt_succ_self n⟩
        · intro hmem
          obtain ⟨-, e', m, ht', he', hlt⟩ := Finset.mem_filter.mp hmem
          cases ht.symm.trans ht'
          rw [he.unique he'] at hlt
          exact Nat.lt_irrefl m hlt
      · intro i hi
        obtain ⟨hin, e', m, ht', he', hlt⟩ := Finset.mem_filter.mp hi
        exact Finset.mem_filter.mpr ⟨hin, e', m, ht', he', Nat.lt_succ_of_lt hlt⟩
  have hall := Finset.card_filter_le (Finset.range g.types.size) fun i =>
    ∃ e m, g.part? ⟨i⟩ = some e ∧ g.Reaches e m ∧ m < n
  rw [Finset.card_range] at hall
  exact Nat.le_trans hcard hall

/-- Within enough levels unification meets the same type exactly if the types are the same in the
graph without sizes, and clashes otherwise. -/
theorem meet_eq (ha : g.Reaches a n) (hb : g.Reaches b m) (hn : n < depth) :
    g.meet depth a b = bif g.unsized.sameWithin depth a b then .same else .clash := by
  induction depth generalizing a b n m with
  | zero => omega
  | succ depth ih =>
    obtain ⟨t, ht⟩ := ha.bound
    obtain ⟨v, hv⟩ := hb.bound
    by_cases hab : a = b
    · simp [meet, sameWithin, hab]
    by_cases htv : t = v
    · simp [meet, sameWithin, hab, ht, hv, htv]
    have hparts : ∀ {e e'}, g.part? t = some e → g.part? v = some e' →
        g.meet depth e e' = bif g.unsized.sameWithin depth e e' then .same else .clash := by
      intro e e' he he'
      obtain ⟨k, rfl, hk⟩ := ha.part ht he
      obtain ⟨k', -, hk'⟩ := hb.part hv he'
      exact ih hk hk' (by omega)
    simp only [meet, sameWithin, hab, ht, hv, htv, bound?_unsized, kind?_unsized, ↓reduceIte]
    cases hkt : g.kind? t with
    | none => simp
    | some k =>
      cases hkv : g.kind? v with
      | none => cases k <;> simp [TypeKind.unsized]
      | some k' =>
        cases k with
        | array e size =>
          cases k' with
          | array e' size' =>
            simpa [TypeKind.unsized] using hparts (part?_array hkt) (part?_array hkv)
          | _ => simp [TypeKind.unsized]
        | reference e =>
          cases k' with
          | reference e' =>
            simpa [TypeKind.unsized] using hparts (part?_reference hkt) (part?_reference hkv)
          | _ => simp [TypeKind.unsized]
        | _ => cases k' <;> simp [TypeKind.unsized]

end Reaches

/-- Whether the way down a type comes to its end within `depth` levels. -/
def endsWithin (g : TypeGraph) : (depth : Nat) → SymbolId → Bool
  | 0, _ => false
  | depth + 1, a => (g.bound? a).any fun t => ((g.part? t).map (g.endsWithin depth)).getD true

theorem Reaches.endsWithin (h : g.Reaches a n) (hn : n < depth) : g.endsWithin depth a = true := by
  induction h generalizing depth with
  | plain ha hnone =>
    obtain ⟨depth, rfl⟩ := Nat.exists_eq_succ_of_ne_zero (Nat.ne_zero_of_lt hn)
    simp [TypeGraph.endsWithin, ha, hnone]
  | made ha ht _ ih =>
    obtain ⟨depth, rfl⟩ := Nat.exists_eq_succ_of_ne_zero (Nat.ne_zero_of_lt hn)
    simp [TypeGraph.endsWithin, ha, ht, ih (Nat.lt_of_succ_lt_succ hn)]

theorem Complete.of_endsWithin (h : g.endsWithin depth a = true) : g.Complete a := by
  induction depth generalizing a with
  | zero => cases h
  | succ depth ih =>
    obtain ⟨t, ha, hrest⟩ := (Option.any_eq_true _ _).mp h
    cases ht : g.part? t with
    | none => exact ⟨0, .plain ha ht⟩
    | some e =>
      rw [ht] at hrest
      obtain ⟨n, hn⟩ := ih hrest
      exact ⟨n + 1, .made ha ht hn⟩

theorem complete_iff : g.Complete a ↔ g.endsWithin g.nestingDepth a = true :=
  ⟨fun ⟨_, h⟩ => h.endsWithin (Nat.lt_succ_of_le h.le_size), .of_endsWithin⟩

instance : Decidable (g.Complete a) := decidable_of_iff _ complete_iff.symm

/-- Types are the same exactly if they are so without the sizes of arrays and these agree. -/
theorem sameWithin_iff : g.sameWithin depth a b = true ↔
    g.unsized.sameWithin depth a b = true ∧ g.sizesWithin depth a = g.sizesWithin depth b := by
  induction depth generalizing a b with
  | zero => simp [sameWithin]
  | succ depth ih =>
    by_cases hab : a = b
    · simp [sameWithin, hab]
    simp only [sameWithin, sizesWithin, hab, bound?_unsized, kind?_unsized, ↓reduceIte]
    cases ha : g.bound? a with
    | none => simp
    | some t =>
      cases hb : g.bound? b with
      | none => simp
      | some v =>
        by_cases htv : t = v
        · simp [htv]
        simp only [htv, ↓reduceIte, Option.bind_some]
        cases hkt : g.kind? t with
        | none => simp
        | some k =>
          cases hkv : g.kind? v with
          | none => cases k <;> simp [TypeKind.unsized]
          | some k' =>
            cases k <;> cases k' <;> simp [TypeKind.unsized, ih, and_left_comm]

end TypeGraph

/-- Unification of types that are known all the way down binds nothing, and it succeeds exactly if they
are the same once the sizes of arrays are left out. They are the same as they stand exactly if their
arrays agree in size, too. -/
theorem Groups.unify_eq_sameType_unsized {g : TypeGraph} {a b : SymbolId} (ha : g.Complete a)
    (hb : g.Complete b) (gs : Groups) :
    gs.unify g a b = .ok (g.unsized.sameType a b, g, gs) ∧
      (g.sameType a b = true ↔
        gs.unify g a b = .ok (true, g, gs) ∧ g.sizes a = g.sizes b) := by
  obtain ⟨n, ha⟩ := ha
  obtain ⟨m, hb⟩ := hb
  have hmeet := ha.meet_eq hb (Nat.lt_succ_of_le ha.le_size)
  have hunify : gs.unify g a b = .ok (g.unsized.sameType a b, g, gs) := by
    rw [TypeGraph.sameType, TypeGraph.nestingDepth_unsized, Groups.unify, TypeGraph.nestingDepth, hmeet]
    cases g.unsized.sameWithin (g.types.size + 1) a b <;> rfl
  refine ⟨hunify, ?_⟩
  rw [hunify, TypeGraph.sameType, TypeGraph.sameWithin_iff, TypeGraph.sameType,
    TypeGraph.nestingDepth_unsized]
  simp [TypeGraph.sizes]

/-- The prelude and references to an array of three integers and to one of any number of them. -/
def TypeGraph.referencesToArrays : TypeGraph :=
  let (three, g) := Prelude.graph.newAnonymous (.array Builtin.int.symbol (some 3))
  let (_, g) := g.newAnonymous (.reference three)
  let (many, g) := g.newAnonymous (.array Builtin.int.symbol none)
  (g.newAnonymous (.reference many)).2

/-- The references are unified although their arrays differ in size. -/
theorem Groups.unify_eq_sameType_unsized_references :
    let g := TypeGraph.referencesToArrays
    g.Complete ⟨30⟩ ∧ g.Complete ⟨32⟩ ∧ Groups.empty.unify g ⟨30⟩ ⟨32⟩ = .ok (true, g, .empty) ∧
      g.sizes ⟨30⟩ = [some 3] ∧ g.sizes ⟨32⟩ = [none] ∧ g.sameType ⟨30⟩ ⟨32⟩ = false := by
  intro g
  have hfirst : g.Complete ⟨30⟩ := by decide +kernel
  have hsecond : g.Complete ⟨32⟩ := by decide +kernel
  have hsizes : g.sizes ⟨30⟩ = [some 3] ∧ g.sizes ⟨32⟩ = [none] := by decide +kernel
  have hunsized : g.unsized.sameType ⟨30⟩ ⟨32⟩ = true := by decide +kernel
  obtain ⟨hunify, hsame⟩ := unify_eq_sameType_unsized hfirst hsecond .empty
  rw [hunsized] at hunify
  refine ⟨hfirst, hsecond, hunify, hsizes.1, hsizes.2, ?_⟩
  rw [Bool.eq_false_iff, Ne, hsame, hsizes.1, hsizes.2]
  simp

/-- Unification takes an array of three integers and one of any number of them for the same type. -/
theorem Groups.unify_arrays_of_sameType_eq_false :
    let g := TypeGraph.referencesToArrays
    g.Complete ⟨29⟩ ∧ g.Complete ⟨31⟩ ∧ Groups.empty.unify g ⟨29⟩ ⟨31⟩ = .ok (true, g, .empty) ∧
      g.sameType ⟨29⟩ ⟨31⟩ = false := by
  intro g
  have hmeet : g.meet g.nestingDepth ⟨29⟩ ⟨31⟩ = .same := by decide +kernel
  refine ⟨by decide +kernel, by decide +kernel, ?_, by decide +kernel⟩
  rw [Groups.unify, hmeet]

end Binder
