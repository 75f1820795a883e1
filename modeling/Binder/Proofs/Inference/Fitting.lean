import Binder.Proofs.Inference.Overload
import Binder.Proofs.Module.Pass
import Mathlib.Data.List.Nodup

/-! What it takes for a signature to accept a call, said without placing one argument after the
other: named arguments go to parameters of their own, positional ones to the first parameters that
are left over, and the parameters after these have fallbacks. -/
namespace Binder.Overload

variable {g : TypeGraph} {parameters : List Parameter} {named : List (String × TypeId)}
  {positional : List TypeId} {used : List Nat} {taken : List String} {i : ℕ}

/-- The parameters that no named argument goes to, in the order of their declaration. -/
def remaining (parameters : List Parameter) (named : List (String × TypeId)) : List Parameter :=
  parameters.filter fun p => p.name ∉ named.map Prod.fst

/-- Named arguments have names of their own, none of which is taken, and each goes to a parameter of
its type. -/
structure Placed (g : TypeGraph) (parameters : List Parameter) (named : List (String × TypeId))
    (taken : List String) : Prop where
  free : ∀ a ∈ named, a.1 ∉ taken
  distinct : (named.map Prod.fst).Nodup
  typed : ∀ a ∈ named, ∃ p ∈ parameters, p.name = a.1 ∧ g.sameType p.type (g.symbolOf a.2)

/-- The first parameters have the types of the positional arguments, and the rest have fallbacks. -/
structure Covered (g : TypeGraph) (parameters : List Parameter) (positional : List TypeId) :
    Prop where
  enough : positional.length ≤ parameters.length
  typed : ∀ (i : ℕ) p t, parameters[i]? = some p → positional[i]? = some t →
    g.sameType p.type (g.symbolOf t)
  rest : ∀ (i : ℕ) p, parameters[i]? = some p → positional.length ≤ i → p.fallback.isSome

/-- A signature can be called with the arguments. -/
def Fits (g : TypeGraph) (named : List (String × TypeId)) (positional : List TypeId)
    (s : Signature) : Prop :=
  Placed g s.parameters named [] ∧ Covered g (remaining s.parameters named) positional

/-! Named arguments -/

theorem place?_eq_some_iff (h : (parameters.map Parameter.name).Nodup) {name : String} :
    place? name parameters = some i ↔ ∃ p, parameters[i]? = some p ∧ p.name = name := by
  induction parameters generalizing i with
  | nil => simp [place?]
  | cons q rest ih =>
    obtain ⟨hq, hrest⟩ := List.nodup_cons.mp h
    rw [place?]
    cases hplace : place? name rest with
    | some j =>
      obtain ⟨p, hp, rfl⟩ := (ih hrest).mp hplace
      have hmem : p.name ∈ rest.map Parameter.name := List.mem_map_of_mem (List.mem_of_getElem? hp)
      have hne : q.name ≠ p.name := fun he => hq (he ▸ hmem)
      cases i with
      | zero => simp [hne]
      | succ i =>
        rw [List.getElem?_cons_succ, ← ih hrest, hplace]
        simp
    | none =>
      cases i with
      | zero =>
        by_cases hname : q.name = name <;> simp [hname]
      | succ i =>
        rw [List.getElem?_cons_succ, ← ih hrest, hplace]
        by_cases hname : q.name = name <;> simp [hname]

/-- The places in use are those of the parameters whose names are taken. -/
def Tallies (parameters : List Parameter) (used : List Nat) (taken : List String) : Prop :=
  ∀ (i : ℕ) p, parameters[i]? = some p → (i ∈ used ↔ p.name ∈ taken)

theorem Tallies.cons (h : Tallies parameters used taken)
    (hnames : (parameters.map Parameter.name).Nodup) {p : Parameter}
    (hp : parameters[i]? = some p) : Tallies parameters (i :: used) (p.name :: taken) := by
  intro j q hq
  have hsame : j = i ↔ q.name = p.name := by
    constructor
    · rintro rfl
      cases hp.symm.trans hq
      rfl
    · intro hname
      have hj := (place?_eq_some_iff hnames).mpr ⟨q, hq, hname⟩
      have hi := (place?_eq_some_iff hnames).mpr ⟨p, hp, rfl⟩
      exact Option.some.inj (hj.symm.trans hi)
  rw [List.mem_cons, List.mem_cons, hsame, h j q hq]

theorem placed_cons_iff {a : String × TypeId} :
    Placed g parameters (a :: named) taken ↔
      (a.1 ∉ taken ∧ ∃ p ∈ parameters, p.name = a.1 ∧ g.sameType p.type (g.symbolOf a.2)) ∧
        Placed g parameters named (a.1 :: taken) := by
  constructor
  · intro h
    obtain ⟨hnot, hdistinct⟩ := List.nodup_cons.mp h.distinct
    refine ⟨⟨h.free a List.mem_cons_self, h.typed a List.mem_cons_self⟩, ?_, hdistinct,
      fun b hb => h.typed b (List.mem_cons_of_mem a hb)⟩
    intro b hb hmem
    rcases List.mem_cons.mp hmem with hname | htaken
    · exact hnot (hname ▸ List.mem_map_of_mem hb)
    · exact h.free b (List.mem_cons_of_mem a hb) htaken
  · rintro ⟨⟨hfree, htyped⟩, h⟩
    have hnot : a.1 ∉ named.map Prod.fst := by
      intro hmem
      obtain ⟨b, hb, hname⟩ := List.mem_map.mp hmem
      exact h.free b hb (hname ▸ List.mem_cons_self)
    refine ⟨List.forall_mem_cons.mpr ⟨hfree, ?_⟩, List.nodup_cons.mpr ⟨hnot, h.distinct⟩,
      List.forall_mem_cons.mpr ⟨htyped, h.typed⟩⟩
    exact fun b hb hmem => h.free b hb (List.mem_cons_of_mem _ hmem)

theorem placeNamed_spec (g : TypeGraph) (named : List (String × TypeId))
    (hnames : (parameters.map Parameter.name).Nodup) (h : Tallies parameters used taken) :
    (∃ used', placeNamed g parameters named used = some used' ∧
      Placed g parameters named taken ∧ Tallies parameters used' (taken ++ named.map Prod.fst)) ∨
    placeNamed g parameters named used = none ∧ ¬ Placed g parameters named taken := by
  induction named generalizing used taken with
  | nil => exact .inl ⟨used, rfl, ⟨by simp, by simp, by simp⟩, by simpa using h⟩
  | cons a rest ih =>
    obtain ⟨name, t⟩ := a
    have hplaces (p : Parameter) (hp : p ∈ parameters) (hname : p.name = name) :
        ∃ i, place? name parameters = some i ∧ parameters[i]? = some p := by
      obtain ⟨i, hi⟩ := List.getElem?_of_mem hp
      exact ⟨i, (place?_eq_some_iff hnames).mpr ⟨p, hi, hname⟩, hi⟩
    rw [placeNamed, placed_cons_iff]
    cases hplace : place? name parameters with
    | none =>
      refine .inr ⟨rfl, ?_⟩
      rintro ⟨⟨-, p, hp, hname, -⟩, -⟩
      obtain ⟨i, hi, -⟩ := hplaces p hp hname
      cases hplace.symm.trans hi
    | some i =>
      obtain ⟨p, hp, rfl⟩ := (place?_eq_some_iff hnames).mp hplace
      simp only [hp]
      split
      next hfree =>
        have hhead : p.name ∉ taken ∧
            ∃ q ∈ parameters, q.name = p.name ∧ g.sameType q.type (g.symbolOf t) :=
          ⟨(h i p hp).not.mp hfree.1, p, List.mem_of_getElem? hp, rfl, hfree.2⟩
        rcases ih (h.cons hnames hp) with ⟨used', hused, hrest, htallies⟩ | ⟨hnone, hrest⟩
        · refine .inl ⟨used', hused, ⟨hhead, hrest⟩, fun j q hq => ?_⟩
          rw [htallies j q hq]
          simp [or_left_comm]
        · exact .inr ⟨hnone, fun hall => hrest hall.2⟩
      next hnot =>
        refine .inr ⟨rfl, ?_⟩
        rintro ⟨⟨hfree, q, hq, hname, htype⟩, -⟩
        obtain ⟨j, hj, hget⟩ := hplaces q hq hname
        cases hplace.symm.trans hj
        cases hp.symm.trans hget
        exact hnot ⟨(h i p hp).not.mpr hfree, htype⟩

theorem unused_eq_remaining (h : Tallies parameters used (named.map Prod.fst)) :
    unused parameters used = remaining parameters named := by
  have hfilter : (parameters.zipIdx.filter fun p => p.2 ∉ used) = parameters.zipIdx.filter
      ((fun p : Parameter => decide (p.name ∉ named.map Prod.fst)) ∘ Prod.fst) := by
    refine List.filter_congr fun x hx => ?_
    have hget := List.mem_zipIdx_iff_getElem?.mp hx
    simp only [Function.comp, h x.2 x.1 hget]
  rw [unused, hfilter, ← List.filter_map, List.zipIdx_map_fst, remaining]

/-! Positional arguments -/

theorem takes_iff : takes g parameters positional ↔ Covered g parameters positional := by
  induction parameters generalizing positional with
  | nil =>
    cases positional with
    | nil => simpa [takes] using (⟨by simp, by simp, by simp⟩ : Covered g [] [])
    | cons t ts => simpa [takes] using fun h : Covered g [] (t :: ts) => by simpa using h.enough
  | cons p rest ih =>
    cases positional with
    | nil =>
      rw [takes, Bool.and_eq_true, ih]
      constructor
      · rintro ⟨hp, hrest⟩
        refine ⟨by simp, by simp, fun i q hq _ => ?_⟩
        cases i with
        | zero =>
          cases hq
          exact hp
        | succ i => exact hrest.rest i q hq (Nat.zero_le i)
      · intro h
        exact ⟨h.rest 0 p rfl le_rfl, by simp, by simp,
          fun i q hq _ => h.rest (i + 1) q hq (by simp)⟩
    | cons t ts =>
      rw [takes, Bool.and_eq_true, ih]
      constructor
      · rintro ⟨hp, hrest⟩
        refine ⟨by simpa using hrest.enough, fun i q v hq hv => ?_, fun i q hq hi => ?_⟩
        · cases i with
          | zero =>
            cases hq
            cases hv
            exact hp
          | succ i => exact hrest.typed i q v hq hv
        · cases i with
          | zero => simp at hi
          | succ i => exact hrest.rest i q hq (by simpa using hi)
      · intro h
        exact ⟨h.typed 0 p t rfl rfl, by simpa using h.enough, fun i => h.typed (i + 1),
          fun i q hq hi => h.rest (i + 1) q hq (by simpa using hi)⟩

theorem accepts_iff_fits {s : Signature} (h : (s.parameters.map Parameter.name).Nodup) :
    accepts g s named positional ↔ Fits g named positional s := by
  have hstart : Tallies s.parameters [] [] := fun _ _ _ => by simp
  rw [accepts, Fits]
  rcases placeNamed_spec g named h hstart with
    ⟨used, hused, hplaced, htallies⟩ | ⟨hnone, hplaced⟩
  · simp only [hused, takes_iff, unused_eq_remaining htallies, hplaced, true_and]
  · simp [hnone, hplaced]

theorem nodup_of_resolveParameters {ps : List (Tree.Parameter Tree.Mark)} {id : BuilderId}
    {names : List String} {c c' : Context} {qs : List Parameter}
    (h : Build.resolveParameters id names ps c = .ok qs c') :
    (qs.map Parameter.name).Nodup ∧ ∀ q ∈ qs, q.name ∉ names := by
  induction ps generalizing names c qs c' with
  | nil =>
    rw [Build.resolveParameters, Build.resolveParametersBy] at h
    cases h
    simp
  | cons p rest ih =>
    obtain ⟨name, type, fallback⟩ := p
    rw [Build.resolveParameters, Build.resolveParametersBy] at h
    obtain ⟨symbol, c₁, -, h⟩ := Build.exists_of_bind_ok h
    split at h
    next hmem =>
      obtain ⟨_, c₂, -, h⟩ := Build.exists_of_bind_ok h
      exact ih h
    next hname =>
      have hrest : ∃ qs' c₂ c₃, Build.resolveParameters id (name :: names) rest c₂ = .ok qs' c₃ ∧
          qs = ⟨name, symbol, fallback⟩ :: qs' := by
        cases fallback with
        | none =>
          obtain ⟨qs', c₃, hrest, h⟩ := Build.exists_of_bind_ok h
          cases h
          exact ⟨qs', c₁, _, hrest, rfl⟩
        | some e =>
          obtain ⟨_, c₂, -, hnext⟩ := Build.exists_of_bind_ok h
          obtain ⟨qs', c₃, hrest, hlast⟩ := Build.exists_of_bind_ok
            (p := Build.resolveParameters id (name :: names) rest) hnext
          cases hlast
          exact ⟨qs', c₂, _, hrest, rfl⟩
      obtain ⟨qs', c₂, c₃, hrest, rfl⟩ := hrest
      obtain ⟨hdistinct, hfresh⟩ := ih hrest
      have hhead : name ∉ qs'.map Parameter.name := by
        intro hmem
        obtain ⟨q, hq, he⟩ := List.mem_map.mp hmem
        exact hfresh q hq (he ▸ List.mem_cons_self)
      refine ⟨List.nodup_cons.mpr ⟨hhead, hdistinct⟩, List.forall_mem_cons.mpr ⟨hname, ?_⟩⟩
      exact fun q hq hmem => hfresh q hq (List.mem_cons_of_mem _ hmem)

/-- The overload of a call is the first signature that can be called with its arguments, and the
parameters of every signature that is resolved have the different names which that rests on. -/
theorem select?_eq_first_fitting (g : TypeGraph) (named : List (String × TypeId))
    (positional : List TypeId) :
    (∀ signatures : List Signature,
      (∀ s ∈ signatures, (s.parameters.map Parameter.name).Nodup) →
      (∀ s, select? g signatures named positional = some s ↔
        ∃ before after, signatures = before ++ s :: after ∧ Fits g named positional s ∧
          ∀ s' ∈ before, ¬ Fits g named positional s') ∧
      (select? g signatures named positional = none ↔
        ∀ s ∈ signatures, ¬ Fits g named positional s)) ∧
    ∀ id ps c qs c', Build.resolveParameters id [] ps c = .ok qs c' →
      (qs.map Parameter.name).Nodup := by
  refine ⟨fun signatures hnames => ⟨fun s => ?_, ?_⟩,
    fun id ps c qs c' h => (nodup_of_resolveParameters h).1⟩
  · rw [select?, List.find?_eq_some_iff_append]
    constructor
    · rintro ⟨hs, before, after, rfl, hbefore⟩
      refine ⟨before, after, rfl, (accepts_iff_fits (hnames s (by simp))).mp hs, fun s' hs' => ?_⟩
      rw [← accepts_iff_fits (hnames s' (by simp [hs']))]
      simpa using hbefore s' hs'
    · rintro ⟨before, after, rfl, hs, hbefore⟩
      refine ⟨(accepts_iff_fits (hnames s (by simp))).mpr hs, before, after, rfl, fun s' hs' => ?_⟩
      have hnot := (accepts_iff_fits (hnames s' (by simp [hs']))).not.mpr (hbefore s' hs')
      simpa using hnot
  · rw [select?, List.find?_eq_none]
    exact forall₂_congr fun s hs => (accepts_iff_fits (hnames s hs)).not

/-- Two overloads, of which the second has a fallback between two other parameters. -/
def gapped : List Signature :=
  [⟨none, [⟨"x", Builtin.int.symbol, none⟩, ⟨"z", Builtin.int.symbol, none⟩], Builtin.int.symbol⟩,
    ⟨none, [⟨"x", Builtin.int.symbol, none⟩,
      ⟨"y", Builtin.int.symbol, some (.literal default (.int 0))⟩,
      ⟨"z", Builtin.string.symbol, none⟩], Builtin.string.symbol⟩]

theorem select?_eq_first_fitting_gapped :
    (∃ s, select? Prelude.graph gapped [("z", ⟨8⟩)] [⟨4⟩] = some s ∧
      s.result = Builtin.string.symbol ∧ Fits Prelude.graph [("z", ⟨8⟩)] [⟨4⟩] s) ∧
    (∀ s ∈ gapped.take 1, ¬ Fits Prelude.graph [("z", ⟨8⟩)] [⟨4⟩] s) ∧
    ∃ qs c', Build.resolveParameters ⟨0⟩ [] [.mk "x" (.literal default .null) none,
      .mk "x" (.literal default .null) none] (.initial "main") = .ok qs c' ∧
      (qs.map Parameter.name).Nodup := by
  obtain ⟨hselect, hresolve⟩ := select?_eq_first_fitting Prelude.graph [("z", ⟨8⟩)] [⟨4⟩]
  obtain ⟨-, -, -, hfits, -⟩ := (hselect gapped (by decide)).1 _ |>.mp rfl
  have hnone := (hselect (gapped.take 1) (by decide)).2.mp rfl
  obtain ⟨qs, c', hparameters⟩ : ∃ qs c', Build.resolveParameters ⟨0⟩ []
      [.mk "x" (.literal default .null) none, .mk "x" (.literal default .null) none]
      (.initial "main") = .ok qs c' := by
    simp only [Build.resolveParameters, Build.resolveParametersBy, Build.resolveTypeBy]
    exact ⟨_, _, rfl⟩
  exact ⟨⟨_, rfl, rfl, hfits⟩, hnone, qs, c', hparameters, hresolve _ _ _ _ _ hparameters⟩

end Binder.Overload
