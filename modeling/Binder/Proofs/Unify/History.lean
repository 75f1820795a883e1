import Binder.Proofs.Unify.Endless
import Binder.Proofs.Unify.Grouping
import Mathlib.Data.List.Perm.Lattice
import Mathlib.Logic.Relation

/-! Runs of the operations of unification. The groups are the classes of the symbols that were joined,
each listed without repetition; the members of a group are all unbound or all bound to one type; and
the queue receives every symbol that an operation binds, once. -/
namespace Binder

namespace TypeGraph

variable {g g' : TypeGraph} {s : SymbolId} {type : TypeId}

def newlyBound (g g' : TypeGraph) : List SymbolId :=
  ((List.range g.symbols.size).map SymbolId.mk).filter fun s => g.isUnbound s && g'.isBound s

theorem mem_newlyBound : s ∈ g.newlyBound g' ↔ g.isUnbound s ∧ g'.isBound s := by
  simp only [newlyBound, List.mem_filter, List.mem_map, List.mem_range, Bool.and_eq_true]
  refine ⟨And.right, fun h => ⟨⟨s.index, ?_, rfl⟩, h⟩⟩
  exact (isUnbound_iff.mp h.1).1

theorem nodup_newlyBound (g g' : TypeGraph) : (g.newlyBound g').Nodup := by
  apply List.Nodup.filter
  exact List.nodup_range.map fun i j h => congrArg SymbolId.index h

theorem newlyBound_self (g : TypeGraph) : g.newlyBound g = [] := by
  rw [List.eq_nil_iff_forall_not_mem]
  intro s hs
  obtain ⟨hunbound, hbound⟩ := mem_newlyBound.mp hs
  rw [isBound, (isUnbound_iff.mp hunbound).2] at hbound
  cases hbound

theorem nodup_bindAll (ss : List SymbolId) : (g.bindAll type ss).2.Nodup := by
  induction ss generalizing g with
  | nil => exact List.nodup_nil
  | cons s rest ih =>
    unfold bindAll
    split
    next hs =>
      refine List.nodup_cons.mpr ⟨?_, ih⟩
      rw [mem_bindAll]
      rintro ⟨-, hunbound⟩
      rw [isUnbound_iff, bound?_assign (isUnbound_iff.mp hs).1, if_pos rfl] at hunbound
      cases hunbound.2
    next => exact ih

theorem bindAll_perm (ss : List SymbolId) :
    (g.bindAll type ss).2.Perm (g.newlyBound (g.bindAll type ss).1) := by
  rw [List.perm_ext_iff_of_nodup (nodup_bindAll ss) (nodup_newlyBound ..)]
  intro s
  rw [mem_bindAll, mem_newlyBound, isBound, bound?_bindAll]
  constructor
  · rintro ⟨hmem, hunbound⟩
    simp [hmem, hunbound]
  · rintro ⟨hunbound, hbound⟩
    refine ⟨?_, hunbound⟩
    by_contra hmem
    rw [if_neg (fun h => hmem h.1), (isUnbound_iff.mp hunbound).2] at hbound
    cases hbound

end TypeGraph

namespace Groups

variable {g : TypeGraph} {gs : Groups} {a b s x : SymbolId}

theorem remembers_iff : gs.remembers s = true ↔ ∃ group ∈ gs.groups, s ∈ group := by
  simp [remembers]

theorem groupOf_eq_of_mem (h : gs.Disjoint) (hx : x ∈ gs.groupOf s) : gs.groupOf x = gs.groupOf s := by
  rcases mem_groupOf_cases hx with hmem | rfl
  · exact groupOf_eq h hmem hx
  · rfl

theorem groupOf_mem (h : gs.remembers s = true) : gs.groupOf s ∈ gs.groups := by
  obtain ⟨group, hgroup, hs⟩ := remembers_iff.mp h
  rcases gs.groupOf_cases s with hmem | ⟨-, hnone⟩
  · exact hmem
  · exact absurd hs (hnone group hgroup)

theorem remembers_of_mem_groupOf (hne : x ≠ s) (hx : x ∈ gs.groupOf s) : gs.remembers s = true := by
  have hmem := (mem_groupOf_cases hx).resolve_right hne
  exact remembers_iff.mpr ⟨_, hmem, gs.mem_groupOf_self s⟩

theorem groupOf_join (h : gs.Disjoint) (hb : b ∉ gs.groupOf a) (s : SymbolId) :
    (gs.join a b).groupOf s =
      if s ∈ gs.groupOf a ++ gs.groupOf b then gs.groupOf a ++ gs.groupOf b else gs.groupOf s := by
  have hdisjoint := disjoint_join h a b
  split
  next hs => exact groupOf_eq hdisjoint ((mem_join_groups hb).mpr (.inl rfl)) hs
  next hs =>
    have hout : a ∉ gs.groupOf s ∧ b ∉ gs.groupOf s := by
      constructor <;> intro hin
      · exact hs (List.mem_append_left _ (groupOf_eq_of_mem h hin ▸ gs.mem_groupOf_self s))
      · exact hs (List.mem_append_right _ (groupOf_eq_of_mem h hin ▸ gs.mem_groupOf_self s))
    rcases gs.groupOf_cases s with hmem | ⟨hsingle, hnone⟩
    · exact groupOf_eq hdisjoint ((mem_join_groups hb).mpr (.inr ⟨hmem, hout⟩))
        (gs.mem_groupOf_self s)
    · rcases (gs.join a b).groupOf_cases s with hmem' | ⟨hsingle', -⟩
      · rcases (mem_join_groups hb).mp hmem' with heq | ⟨hold, -⟩
        · exact absurd (heq ▸ (gs.join a b).mem_groupOf_self s) hs
        · exact absurd ((gs.join a b).mem_groupOf_self s) (hnone _ hold)
      · rw [hsingle, hsingle']

theorem mem_groupOf_join (h : gs.Disjoint) : x ∈ (gs.join a b).groupOf s ↔ x ∈ gs.groupOf s ∨
    s ∈ gs.groupOf a ∧ x ∈ gs.groupOf b ∨ s ∈ gs.groupOf b ∧ x ∈ gs.groupOf a := by
  by_cases hb : b ∈ gs.groupOf a
  · rw [join_eq_self hb, groupOf_eq_of_mem h hb]
    have hsame : s ∈ gs.groupOf a ∧ x ∈ gs.groupOf a → x ∈ gs.groupOf s := by
      rintro ⟨hs, hx⟩
      rwa [groupOf_eq_of_mem h hs]
    tauto
  rw [groupOf_join h hb]
  split
  next hs =>
    rcases List.mem_append.mp hs with hs | hs <;>
    · rw [groupOf_eq_of_mem h hs, List.mem_append]
      tauto
  next hs =>
    rw [List.mem_append] at hs
    tauto

theorem remembers_join (h : gs.Disjoint) (hne : a ≠ b) (s : SymbolId) :
    (gs.join a b).remembers s = true ↔ gs.remembers s = true ∨ s = a ∨ s = b := by
  by_cases hb : b ∈ gs.groupOf a
  · rw [join_eq_self hb]
    have ha := remembers_of_mem_groupOf hne.symm hb
    have hb' : gs.remembers b = true := remembers_iff.mpr ⟨_, groupOf_mem ha, hb⟩
    constructor
    · exact .inl
    · rintro (hs | rfl | rfl)
      exacts [hs, ha, hb']
  simp only [remembers_iff, mem_join_groups hb]
  constructor
  · rintro ⟨group, rfl | ⟨hgroup, -⟩, hs⟩
    · rcases List.mem_append.mp hs with hs | hs
      · exact (mem_groupOf_cases hs).imp (fun hmem => ⟨_, hmem, hs⟩) .inl
      · exact (mem_groupOf_cases hs).imp (fun hmem => ⟨_, hmem, hs⟩) .inr
    · exact .inl ⟨group, hgroup, hs⟩
  · intro hs
    by_cases hin : s ∈ gs.groupOf a ++ gs.groupOf b
    · exact ⟨_, .inl rfl, hin⟩
    rcases hs with ⟨group, hgroup, hs⟩ | rfl | rfl
    · refine ⟨group, .inr ⟨hgroup, ?_, ?_⟩, hs⟩ <;> intro hmem
      · exact hin (List.mem_append_left _ (groupOf_eq h hgroup hmem ▸ hs))
      · exact hin (List.mem_append_right _ (groupOf_eq h hgroup hmem ▸ hs))
    · exact absurd (List.mem_append_left _ (gs.mem_groupOf_self s)) hin
    · exact absurd (List.mem_append_right _ (gs.mem_groupOf_self s)) hin

end Groups

/-- A graph of types with the groups of its symbols. -/
structure Bindings where
  graph : TypeGraph
  groups : Groups

namespace Bindings

inductive Operation where
  | unify (t v : SymbolId)
  | bindType (s : SymbolId) (type : TypeId)
  | settleBound (s : SymbolId)
  | takeSettled

namespace Operation

/-- Performs an operation. One that fails changes nothing. -/
def apply : Operation → Bindings → Bindings × Except Misuse Unit
  | .unify t v, b =>
      match b.groups.unify b.graph t v with
      | .ok (_, g, gs) => (⟨g, gs⟩, .ok ())
      | .error e => (b, .error e)
  | .bindType s type, b =>
      match b.groups.bindType b.graph s type with
      | .ok (g, gs) => (⟨g, gs⟩, .ok ())
      | .error e => (b, .error e)
  | .settleBound s, b => (⟨(b.groups.settleBound b.graph s).1, (b.groups.settleBound b.graph s).2⟩, .ok ())
  | .takeSettled, b => (⟨b.graph, b.groups.takeSettled.2⟩, .ok ())

/-- The symbols and types that an operation is about are there. -/
def Within (g : TypeGraph) : Operation → Prop
  | .unify t v => g.HasSymbol t ∧ g.HasSymbol v
  | .bindType s type => g.HasSymbol s ∧ g.HasType type
  | .settleBound s => g.HasSymbol s
  | .takeSettled => True

/-- The symbols that an operation makes members of one group: those at which a unification ends that
ends at two unbound symbols. -/
def joins (b : Bindings) : Operation → List (SymbolId × SymbolId)
  | .unify t v =>
      match b.graph.meet b.graph.nestingDepth t v with
      | .joins x y => [(x, y)]
      | _ => []
  | _ => []

def takes (b : Bindings) : Operation → List SymbolId
  | .takeSettled => b.groups.takeSettled.1
  | _ => []

def binds (b : Bindings) (op : Operation) : List SymbolId := b.graph.newlyBound (op.apply b).1.graph

end Operation

/-- What others do to a graph. -/
inductive Alters : TypeGraph → TypeGraph → Prop
  | newSymbol (g : TypeGraph) (name : String) : Alters g (g.newSymbol name).2
  | newType (g : TypeGraph) (d : TypeDef) : (∀ e, d.kind.part? = some e → g.HasSymbol e) →
      Alters g (g.newType d).2
  | bind {g g' : TypeGraph} {s : SymbolId} {t : TypeId} : g.HasType t → g.bind s t = .ok g' →
      Alters g g'

/-- The operations so far, each with the bindings that it was performed on. -/
abbrev History := List (Bindings × Operation)

namespace History

def joined (history : History) : List (SymbolId × SymbolId) :=
  history.flatMap fun (b, op) => op.joins b

def taken (history : History) : List SymbolId := history.flatMap fun (b, op) => op.takes b

def bound (history : History) : List SymbolId := history.flatMap fun (b, op) => op.binds b

/-- A symbol is remembered once it is joined with another one. -/
def Remembers (history : History) (s : SymbolId) : Prop :=
  ∃ p ∈ history.joined, s = p.1 ∨ s = p.2

/-- Symbols are connected if they were joined, directly or by way of others. -/
def Connected (history : History) : SymbolId → SymbolId → Prop :=
  Relation.EqvGen fun x y => (x, y) ∈ history.joined

end History

/-- Operations one after the other. In between others may add symbols and types and bind symbols, but a
member of a group that they bind is the next one to be settled. -/
inductive Run : Bindings → History → Prop
  | start {g : TypeGraph} : Groups.Wellformed g .empty → Run ⟨g, .empty⟩ []
  | operate {b : Bindings} {history : History} {g : TypeGraph} (op : Operation) : Run b history →
      Relation.ReflTransGen Alters b.graph g →
      (∀ s, b.groups.remembers s → g.bound? s = b.graph.bound? s ∨ op = .settleBound s) →
      op.Within g →
      Run (op.apply ⟨g, b.groups⟩).1 (history ++ [(⟨g, b.groups⟩, op)])

variable {b : Bindings} {history : History} {op : Operation} {g g' : TypeGraph} {gs : Groups}
  {s t v x y : SymbolId}

namespace Alters

theorem grows (h : Alters g g') : g.Grows g' := by
  cases h with
  | newSymbol name => exact TypeGraph.grows_newSymbol name
  | newType d => exact TypeGraph.grows_newType d
  | bind _ hbind => exact TypeGraph.bind_eq hbind ▸ TypeGraph.grows_bindAll _ _

theorem wellformed (h : Alters g g') (hwell : gs.Wellformed g) : gs.Wellformed g' := by
  cases h with
  | newSymbol name => exact hwell.newSymbol name
  | newType d hd => exact hwell.newType hd
  | bind htype hbind => exact TypeGraph.bind_eq hbind ▸ hwell.bindAll htype _

end Alters

theorem altered_grows (h : Relation.ReflTransGen Alters g g') : g.Grows g' := by
  induction h with
  | refl => exact .refl g
  | tail _ hlast ih => exact ih.trans hlast.grows

theorem altered_wellformed (h : Relation.ReflTransGen Alters g g') (hwell : gs.Wellformed g) :
    gs.Wellformed g' := by
  induction h with
  | refl => exact hwell
  | tail _ hlast ih => exact hlast.wellformed ih

theorem ne_of_meet_joins {depth : Nat} (h : g.meet depth t v = .joins x y) : x ≠ y := by
  induction depth generalizing t v with
  | zero => cases h
  | succ depth ih =>
    unfold TypeGraph.meet at h
    split at h
    · cases h
    next hne =>
      split at h
      · cases h
      · cases h
      · cases h
        exact hne
      · split at h
        · cases h
        · split at h
          · exact ih h
          · exact ih h
          · cases h

/-- An operation has nothing to pass on. -/
def Quiet (b : Bindings) (op : Operation) : Prop :=
  ∀ s, op = .settleBound s → b.graph.bound? s = none

/-- What an operation can do: nothing, pass a type on to the group of a symbol, join two symbols that
are unbound, or take the queue. -/
inductive Effect (b : Bindings) (op : Operation) : Prop
  | nothing : Quiet b op → (op.apply b).1 = b → op.joins b = [] → op.takes b = [] → Effect b op
  | spread (s : SymbolId) (type : TypeId) (ss : List SymbolId) : b.graph.HasSymbol s →
      b.graph.HasType type → (∀ x, x ∈ ss ↔ x ∈ b.groups.groupOf s) →
      (Quiet b op ∧ b.graph.bound? s = none ∨ op = .settleBound s ∧ b.graph.bound? s = some type) →
      (op.apply b).1 = ⟨(b.groups.spread b.graph type ss).1, (b.groups.spread b.graph type ss).2⟩ →
      op.joins b = [] → op.takes b = [] → Effect b op
  | join (x y : SymbolId) : Quiet b op → x ≠ y → b.graph.isUnbound x → b.graph.isUnbound y →
      (op.apply b).1 = ⟨b.graph, b.groups.join x y⟩ → op.joins b = [(x, y)] → op.takes b = [] →
      Effect b op
  | take : Quiet b op → (op.apply b).1 = ⟨b.graph, { b.groups with settled := [] }⟩ →
      op.joins b = [] → op.takes b = b.groups.settled → Effect b op

theorem mem_cons_groupOf (gs : Groups) (s x : SymbolId) :
    x ∈ s :: gs.groupOf s ↔ x ∈ gs.groupOf s := by
  rw [List.mem_cons, or_iff_right_iff_imp]
  rintro rfl
  exact gs.mem_groupOf_self x

theorem effect_unify (hwell : b.groups.Wellformed b.graph) (ht : b.graph.HasSymbol t)
    (hv : b.graph.HasSymbol v) : Effect b (.unify t v) := by
  have hopen : (b.graph.meet b.graph.nestingDepth t v).Open b.graph := Groups.open_meet hwell ht hv
  cases hmeet : b.graph.meet b.graph.nestingDepth t v with
  | same | clash | endless =>
    exact .nothing nofun (by simp [Operation.apply, Groups.unify, hmeet])
      (by simp [Operation.joins, hmeet]) rfl
  | binds s type =>
    rw [hmeet] at hopen
    obtain ⟨hexists, hnone⟩ := TypeGraph.isUnbound_iff.mp hopen.1
    exact .spread s type (s :: b.groups.groupOf s) hexists hopen.2 (mem_cons_groupOf b.groups s)
      (.inl ⟨nofun, hnone⟩) (by simp [Operation.apply, Groups.unify, hmeet])
      (by simp [Operation.joins, hmeet]) rfl
  | joins x y =>
    rw [hmeet] at hopen
    exact .join x y nofun (ne_of_meet_joins hmeet) hopen.1 hopen.2
      (by simp [Operation.apply, Groups.unify, hmeet]) (by simp [Operation.joins, hmeet]) rfl

theorem Operation.effect (hwell : b.groups.Wellformed b.graph) (hop : op.Within b.graph) :
    Effect b op := by
  cases op with
  | unify t v => exact effect_unify hwell hop.1 hop.2
  | bindType s type =>
    cases hbound : b.graph.isBound s with
    | true => exact .nothing nofun (by simp [apply, Groups.bindType, hbound]) rfl rfl
    | false =>
      exact .spread s type (s :: b.groups.groupOf s) hop.1 hop.2 (mem_cons_groupOf b.groups s)
        (.inl ⟨nofun, TypeGraph.isBound_eq_false_iff.mp hbound⟩)
        (by simp [apply, Groups.bindType, hbound]) rfl rfl
  | settleBound s =>
    cases hbound : b.graph.bound? s with
    | none =>
      refine .nothing ?_ (by simp [apply, Groups.settleBound, hbound]) rfl rfl
      rintro _ ⟨⟩
      exact hbound
    | some type =>
      exact .spread s type (b.groups.groupOf s) hop (hwell.bound hbound) (fun _ => .rfl)
        (.inr ⟨rfl, hbound⟩) (by simp [apply, Groups.settleBound, hbound]) rfl rfl
  | takeSettled => exact .take nofun rfl rfl rfl

/-- All members of each group are bound alike. -/
def Uniform (g : TypeGraph) (gs : Groups) : Prop :=
  ∀ group ∈ gs.groups, ∀ x ∈ group, ∀ y ∈ group, g.bound? x = g.bound? y

/-- The same, but for a group of which a member is about to be settled: the others may be unbound. -/
def Level (b : Bindings) (op : Operation) : Prop :=
  ∀ group ∈ b.groups.groups, (∀ x ∈ group, ∀ y ∈ group, b.graph.bound? x = b.graph.bound? y) ∨
    ∃ s ∈ group, op = .settleBound s ∧ ∀ x ∈ group, x = s ∨ b.graph.bound? x = none

theorem Level.uniform (h : Level b op) (hquiet : Quiet b op) : Uniform b.graph b.groups := by
  intro group hgroup x hx y hy
  rcases h group hgroup with hall | ⟨s, -, hop, hall⟩
  · exact hall x hx y hy
  · have hnone : ∀ z ∈ group, b.graph.bound? z = none := by
      intro z hz
      rcases hall z hz with rfl | hz'
      · exact hquiet z hop
      · exact hz'
    rw [hnone x hx, hnone y hy]

theorem Uniform.groupOf (h : Uniform g gs) (hx : x ∈ gs.groupOf s) : g.bound? x = g.bound? s := by
  rcases Groups.mem_groupOf_cases hx with hmem | rfl
  · exact h _ hmem x hx s (gs.mem_groupOf_self s)
  · rfl

/-- A type that is passed on to the group of a symbol is the type of all its members then. -/
theorem uniform_bindAll {type : TypeId} {ss : List SymbolId} (hwell : gs.Wellformed g)
    (hexists : g.HasSymbol s) (hss : ∀ x, x ∈ ss ↔ x ∈ gs.groupOf s)
    (hs : ∀ x ∈ gs.groupOf s, g.bound? x = none ∨ g.bound? x = some type)
    (hothers : ∀ group ∈ gs.groups, s ∉ group → ∀ x ∈ group, ∀ y ∈ group, g.bound? x = g.bound? y) :
    Uniform (g.bindAll type ss).1 gs := by
  intro group hgroup x hx y hy
  by_cases hin : s ∈ group
  · have hgroupOf := Groups.groupOf_eq hwell.disjoint hgroup hin
    have hall : ∀ z ∈ group, (g.bindAll type ss).1.bound? z = some type := by
      intro z hz
      rw [← hgroupOf] at hz
      rw [TypeGraph.bound?_bindAll]
      rcases hs z hz with hnone | hbound
      · rw [if_pos ⟨(hss z).mpr hz, TypeGraph.isUnbound_iff.mpr
          ⟨hwell.groupOf_hasSymbol hexists z hz, hnone⟩⟩]
      · rw [hbound, ite_self]
    rw [hall x hx, hall y hy]
  · have hout : ∀ z ∈ group, (g.bindAll type ss).1.bound? z = g.bound? z := by
      intro z hz
      rw [TypeGraph.bound?_bindAll, if_neg]
      rintro ⟨hmem, -⟩
      exact Groups.disjoint_groupOf hwell.disjoint hgroup hin ((hss z).mp hmem) hz
    rw [hout x hx, hout y hy, hothers group hgroup hin x hx y hy]

theorem uniform_join (h : Uniform g gs) (hx : g.isUnbound x) (hy : g.isUnbound y) :
    Uniform g (gs.join x y) := by
  by_cases hin : y ∈ gs.groupOf x
  · rwa [Groups.join_eq_self hin]
  intro group hgroup
  rcases (Groups.mem_join_groups hin).mp hgroup with rfl | ⟨hold, -⟩
  · have hnone : ∀ z ∈ gs.groupOf x ++ gs.groupOf y, g.bound? z = none := by
      intro z hz
      rcases List.mem_append.mp hz with hz | hz
      · rw [h.groupOf hz, (TypeGraph.isUnbound_iff.mp hx).2]
      · rw [h.groupOf hz, (TypeGraph.isUnbound_iff.mp hy).2]
    intro z hz z' hz'
    rw [hnone z hz, hnone z' hz']
  · exact h group hold

theorem Effect.uniform (h : Effect b op) (hwell : b.groups.Wellformed b.graph) (hlevel : Level b op) :
    Uniform (op.apply b).1.graph (op.apply b).1.groups := by
  cases h with
  | nothing hquiet hb =>
    rw [hb]
    exact hlevel.uniform hquiet
  | join x y hquiet _ hx hy hb =>
    rw [hb]
    exact uniform_join (hlevel.uniform hquiet) hx hy
  | take hquiet hb =>
    rw [hb]
    exact hlevel.uniform hquiet
  | spread s type ss hexists _ hss hs hb =>
    rw [hb]
    change Uniform (b.graph.bindAll type ss).1 b.groups
    rcases hs with ⟨hquiet, hnone⟩ | ⟨hop, hbound⟩
    · have huniform := hlevel.uniform hquiet
      exact uniform_bindAll hwell hexists hss (fun x hx => .inl ((huniform.groupOf hx).trans hnone))
        fun group hgroup _ => huniform group hgroup
    · refine uniform_bindAll hwell hexists hss ?_ ?_
      · intro x hx
        rcases Groups.mem_groupOf_cases hx with hmem | rfl
        · rcases hlevel _ hmem with hall | ⟨s', -, hop', hall⟩
          · exact .inr ((hall x hx s (b.groups.mem_groupOf_self s)).trans hbound)
          · cases hop.symm.trans hop'
            rcases hall x hx with rfl | hnone
            · exact .inr hbound
            · exact .inl hnone
        · exact .inr hbound
      · intro group hgroup hout
        rcases hlevel group hgroup with hall | ⟨s', hs', hop', -⟩
        · exact hall
        · cases hop.symm.trans hop'
          exact absurd hs' hout

theorem Effect.wellformed (h : Effect b op) (hwell : b.groups.Wellformed b.graph) :
    (op.apply b).1.groups.Wellformed (op.apply b).1.graph := by
  cases h with
  | nothing _ hb => rwa [hb]
  | join x y _ _ hx hy hb =>
    rw [hb]
    exact hwell.join (TypeGraph.isUnbound_iff.mp hx).1 (TypeGraph.isUnbound_iff.mp hy).1
  | take _ hb =>
    rw [hb]
    exact ⟨hwell.bound, hwell.parts, hwell.members, hwell.disjoint⟩
  | spread s type ss _ htype _ _ hb =>
    rw [hb]
    exact hwell.spread htype ss

theorem Effect.grows (h : Effect b op) : b.graph.Grows (op.apply b).1.graph := by
  cases h with
  | nothing _ hb => rw [hb]; exact .refl _
  | join x y _ _ _ _ hb => rw [hb]; exact .refl _
  | take _ hb => rw [hb]; exact .refl _
  | spread s type ss _ _ _ _ hb =>
    rw [hb]
    exact TypeGraph.grows_bindAll type ss

theorem Effect.distinct (h : Effect b op) (hwell : b.groups.Wellformed b.graph)
    (hdistinct : ∀ group ∈ b.groups.groups, group.Nodup) :
    ∀ group ∈ (op.apply b).1.groups.groups, group.Nodup := by
  cases h with
  | nothing _ hb => rwa [hb]
  | take _ hb => rwa [hb]
  | spread s type ss _ _ _ _ hb => rwa [hb]
  | join x y _ _ _ _ hb =>
    rw [hb]
    by_cases hin : y ∈ b.groups.groupOf x
    · rwa [Groups.join_eq_self hin]
    intro group hgroup
    have hnodup : ∀ s, (b.groups.groupOf s).Nodup := by
      intro s
      rcases b.groups.groupOf_cases s with hmem | ⟨hsingle, -⟩
      · exact hdistinct _ hmem
      · rw [hsingle]
        exact List.nodup_singleton s
    rcases (Groups.mem_join_groups hin).mp hgroup with rfl | ⟨hold, -⟩
    · refine (hnodup x).append (hnodup y) fun z hz hz' => hin ?_
      rw [← Groups.groupOf_eq_of_mem hwell.disjoint hz, Groups.groupOf_eq_of_mem hwell.disjoint hz']
      exact b.groups.mem_groupOf_self y
    · exact hdistinct group hold

/-- What joins the queue, or is taken from it, is what the operation binds, or was there before. -/
theorem Effect.queued (h : Effect b op) :
    (op.takes b ++ (op.apply b).1.groups.settled).Perm (b.groups.settled ++ op.binds b) := by
  have hnothing : (op.apply b).1.graph = b.graph → op.binds b = [] := by
    intro hgraph
    rw [Operation.binds, hgraph, TypeGraph.newlyBound_self]
  cases h with
  | nothing _ hb _ htakes => rw [htakes, hnothing (by rw [hb]), hb]; simp
  | join x y _ _ _ _ hb _ htakes => rw [htakes, hnothing (by rw [hb]), hb]; simp
  | take _ hb _ htakes => rw [htakes, hnothing (by rw [hb]), hb]
  | spread s type ss _ _ _ _ hb _ htakes =>
    rw [htakes, Operation.binds, hb, List.nil_append]
    exact (TypeGraph.bindAll_perm ss).append_left _

namespace History

@[simp] theorem joined_append (history : History) (b : Bindings) (op : Operation) :
    History.joined (history ++ [(b, op)]) = history.joined ++ op.joins b := by
  simp [joined]

@[simp] theorem taken_append (history : History) (b : Bindings) (op : Operation) :
    History.taken (history ++ [(b, op)]) = history.taken ++ op.takes b := by
  simp [taken]

@[simp] theorem bound_append (history : History) (b : Bindings) (op : Operation) :
    History.bound (history ++ [(b, op)]) = history.bound ++ op.binds b := by
  simp [bound]

theorem Connected.mono {history history' : History} (hsub : history.joined ⊆ history'.joined)
    (h : history.Connected x y) : history'.Connected x y :=
  Relation.EqvGen.mono (fun _ _ hp => hsub hp) x y h

end History

theorem Effect.remembers (h : Effect b op) (hwell : b.groups.Wellformed b.graph)
    (hremembers : ∀ s, b.groups.remembers s = true ↔ history.Remembers s) (s : SymbolId) :
    (op.apply b).1.groups.remembers s = true ↔ History.Remembers (history ++ [(b, op)]) s := by
  rw [History.Remembers, History.joined_append]
  cases h with
  | nothing _ hb hjoins => rw [hb, hjoins, List.append_nil]; exact hremembers s
  | take _ hb hjoins => rw [hb, hjoins, List.append_nil]; exact hremembers s
  | spread s' type ss _ _ _ _ hb hjoins => rw [hb, hjoins, List.append_nil]; exact hremembers s
  | join x y _ hne _ _ hb hjoins =>
    rw [hb, hjoins, Groups.remembers_join hwell.disjoint hne, hremembers s]
    simp [History.Remembers, or_and_right, exists_or]

theorem Effect.connected (h : Effect b op) (hwell : b.groups.Wellformed b.graph)
    (hconnected : ∀ s x, x ∈ b.groups.groupOf s ↔ history.Connected s x) (s z : SymbolId) :
    z ∈ (op.apply b).1.groups.groupOf s ↔ History.Connected (history ++ [(b, op)]) s z := by
  have hsame : op.joins b = [] →
      (History.Connected (history ++ [(b, op)]) s z ↔ history.Connected s z) := by
    intro hjoins
    rw [History.Connected, History.joined_append, hjoins, List.append_nil, History.Connected]
  cases h with
  | nothing _ hb hjoins => rw [hb, hsame hjoins]; exact hconnected s z
  | take _ hb hjoins => rw [hb, hsame hjoins]; exact hconnected s z
  | spread s' type ss _ _ _ _ hb hjoins => rw [hb, hsame hjoins]; exact hconnected s z
  | join x y _ _ _ _ hb hjoins =>
    rw [hb]
    have hdisjoint := hwell.disjoint
    have hold : ∀ {s z}, z ∈ b.groups.groupOf s → History.Connected (history ++ [(b, op)]) s z :=
      fun hz => History.Connected.mono (by simp) ((hconnected _ _).mp hz)
    have hxy : History.Connected (history ++ [(b, op)]) x y := .rel _ _ (by simp [hjoins])
    constructor
    · intro hz
      rcases (Groups.mem_groupOf_join hdisjoint).mp hz with hz | ⟨hs, hz⟩ | ⟨hs, hz⟩
      · exact hold hz
      · exact .trans _ _ _ (.symm _ _ (hold hs)) (.trans _ _ _ hxy (hold hz))
      · exact .trans _ _ _ (.symm _ _ (hold hs)) (.trans _ _ _ (.symm _ _ hxy) (hold hz))
    · -- to be in one group is an equivalence that relates what was joined
      intro hz
      have hnew := Groups.disjoint_join hdisjoint x y
      clear hsame
      induction hz with
      | rel p q hpq =>
        rw [Groups.mem_groupOf_join hdisjoint]
        rw [History.joined_append, hjoins, List.mem_append, List.mem_singleton] at hpq
        rcases hpq with hpq | hpq
        · exact .inl ((hconnected p q).mpr (.rel _ _ hpq))
        · cases hpq
          exact .inr (.inl ⟨b.groups.mem_groupOf_self x, b.groups.mem_groupOf_self y⟩)
      | refl p => exact Groups.mem_groupOf_self _ p
      | symm p q _ ih =>
        rw [Groups.groupOf_eq_of_mem hnew ih]
        exact Groups.mem_groupOf_self _ p
      | trans p q r _ _ ih ih' =>
        rwa [Groups.groupOf_eq_of_mem hnew ih] at ih'

/-- What holds of the bindings after every operation. -/
structure Kept (b : Bindings) (history : History) : Prop where
  wellformed : b.groups.Wellformed b.graph
  distinct : ∀ group ∈ b.groups.groups, group.Nodup
  uniform : Uniform b.graph b.groups
  remembers : ∀ s, b.groups.remembers s = true ↔ history.Remembers s
  connected : ∀ s x, x ∈ b.groups.groupOf s ↔ history.Connected s x
  queued : (history.taken ++ b.groups.settled).Perm history.bound
  once : history.bound.Nodup
  bound : ∀ s ∈ history.bound, b.graph.isBound s
  grows : ∀ p ∈ history, p.1.graph.Grows b.graph

namespace Kept

theorem level (h : Kept b history) (hgrows : b.graph.Grows g)
    (hpassed : ∀ s, b.groups.remembers s → g.bound? s = b.graph.bound? s ∨ op = .settleBound s) :
    Level ⟨g, b.groups⟩ op := by
  intro group hgroup
  have hsame : ∀ x ∈ group, g.bound? x = b.graph.bound? x ∨ op = .settleBound x := fun x hx =>
    hpassed x (Groups.remembers_iff.mpr ⟨group, hgroup, hx⟩)
  by_cases hchanged : ∃ s ∈ group, g.bound? s ≠ b.graph.bound? s
  · obtain ⟨s, hs, hne⟩ := hchanged
    have hop := (hsame s hs).resolve_left hne
    -- it was unbound, and so were the others
    have hnone : b.graph.bound? s = none := by
      cases hbound : b.graph.bound? s with
      | none => rfl
      | some type => exact absurd ((hgrows.bound hbound).trans hbound.symm) hne
    refine .inr ⟨s, hs, hop, fun x hx => ?_⟩
    rcases hsame x hx with heq | hop'
    · exact .inr (by rw [show (⟨g, b.groups⟩ : Bindings).graph.bound? x = b.graph.bound? x from heq,
        h.uniform group hgroup x hx s hs, hnone])
    · rw [hop] at hop'
      cases hop'
      exact .inl rfl
  · refine .inl fun x hx y hy => ?_
    have hkept : ∀ z ∈ group, g.bound? z = b.graph.bound? z := by
      intro z hz
      by_contra hne
      exact hchanged ⟨z, hz, hne⟩
    change g.bound? x = g.bound? y
    rw [hkept x hx, hkept y hy, h.uniform group hgroup x hx y hy]

theorem operate (h : Kept b history) (haltered : Relation.ReflTransGen Alters b.graph g)
    (hpassed : ∀ s, b.groups.remembers s → g.bound? s = b.graph.bound? s ∨ op = .settleBound s)
    (hop : op.Within g) :
    Kept (op.apply ⟨g, b.groups⟩).1 (history ++ [(⟨g, b.groups⟩, op)]) := by
  have hgrows := altered_grows haltered
  have hwell := altered_wellformed haltered h.wellformed
  have heffect : Effect ⟨g, b.groups⟩ op := Operation.effect hwell hop
  have hlater := hgrows.trans heffect.grows
  have hnew : ∀ s ∈ op.binds ⟨g, b.groups⟩, g.isUnbound s ∧
      (op.apply ⟨g, b.groups⟩).1.graph.isBound s := fun s hs => TypeGraph.mem_newlyBound.mp hs
  exact
    { wellformed := heffect.wellformed hwell
      distinct := heffect.distinct hwell h.distinct
      uniform := heffect.uniform hwell (h.level hgrows hpassed)
      remembers := heffect.remembers hwell h.remembers
      connected := heffect.connected hwell h.connected
      queued := by
        rw [History.taken_append, History.bound_append, List.append_assoc]
        refine (heffect.queued.append_left _).trans ?_
        rw [← List.append_assoc]
        exact h.queued.append_right _
      once := by
        rw [History.bound_append]
        refine h.once.append (TypeGraph.nodup_newlyBound ..) fun s hs hs' => ?_
        have hbound := hgrows.isBound (h.bound s hs)
        rw [TypeGraph.isBound, (TypeGraph.isUnbound_iff.mp (hnew s hs').1).2] at hbound
        cases hbound
      bound := by
        intro s hs
        rw [History.bound_append, List.mem_append] at hs
        rcases hs with hs | hs
        · exact hlater.isBound (h.bound s hs)
        · exact (hnew s hs).2
      grows := by
        intro p hp
        rcases List.mem_append.mp hp with hp | hp
        · exact (h.grows p hp).trans hlater
        · obtain rfl := List.mem_singleton.mp hp
          exact heffect.grows }

end Kept

theorem connected_nil (s x : SymbolId) :
    x ∈ Groups.empty.groupOf s ↔ History.Connected [] s x := by
  have hgroupOf : ∀ s, Groups.empty.groupOf s = [s] := fun _ => rfl
  rw [hgroupOf, List.mem_singleton]
  constructor
  · rintro rfl
    exact .refl x
  · intro h
    induction h with
    | rel p q hpq => cases hpq
    | refl p => rfl
    | symm p q _ ih => exact ih.symm
    | trans p q r _ _ ih ih' => exact ih'.trans ih

theorem Run.kept (h : Run b history) : Kept b history := by
  induction h with
  | start hwell =>
    exact
      { wellformed := hwell, distinct := nofun, uniform := nofun
        remembers := by simp [Groups.empty, Groups.remembers, History.Remembers, History.joined]
        connected := connected_nil, queued := .refl _, once := List.nodup_nil, bound := nofun
        grows := nofun }
  | operate op _ haltered hpassed hop ih => exact ih.operate haltered hpassed hop

/-- The bindings that an operation was performed on refer to nothing that is not there. -/
theorem Run.wellformed_past (h : Run b history) :
    ∀ p ∈ history, p.1.groups.Wellformed p.1.graph := by
  induction h with
  | start => nofun
  | operate op hrun haltered _ _ ih =>
    intro p hp
    rcases List.mem_append.mp hp with hp | hp
    · exact ih p hp
    · obtain rfl := List.mem_singleton.mp hp
      exact altered_wellformed haltered hrun.kept.wellformed

theorem Kept.count_flatten (h : Kept b history) (hs : history.Remembers s) :
    b.groups.groups.flatten.count s = 1 := by
  have hmem := Groups.groupOf_mem ((h.remembers s).mpr hs)
  apply List.count_eq_one_of_mem
  · exact List.nodup_flatten.mpr ⟨h.distinct, h.wellformed.disjoint⟩
  · exact List.mem_flatten.mpr ⟨_, hmem, b.groups.mem_groupOf_self s⟩

theorem Kept.sameGroup_iff (h : Kept b history) (ht : history.Remembers t) (hv : history.Remembers v) :
    b.groups.sameGroup t v = true ↔ ∃ group ∈ b.groups.groups, t ∈ group ∧ v ∈ group := by
  have ht' := (h.remembers t).mpr ht
  rw [Groups.sameGroup, if_pos ⟨ht', (h.remembers v).mpr hv⟩, decide_eq_true_eq]
  constructor
  · intro hmem
    exact ⟨_, Groups.groupOf_mem ht', b.groups.mem_groupOf_self t, hmem⟩
  · rintro ⟨group, hgroup, ht, hv⟩
    rwa [Groups.groupOf_eq h.wellformed.disjoint hgroup ht]

theorem Uniform.cases (h : Uniform g gs) {group : List SymbolId} (hgroup : group ∈ gs.groups) :
    (∀ s ∈ group, g.bound? s = none) ∨ ∃ type, ∀ s ∈ group, g.bound? s = some type := by
  by_cases hnone : ∀ s ∈ group, g.bound? s = none
  · exact .inl hnone
  · simp only [not_forall] at hnone
    obtain ⟨s, hs, hne⟩ := hnone
    obtain ⟨type, htype⟩ := Option.ne_none_iff_exists'.mp hne
    exact .inr ⟨type, fun x hx => (h group hgroup x hx s hs).trans htype⟩

/-- A unification fails only by never coming to an end. -/
theorem apply_unify (hwell : b.groups.Wellformed b.graph) (t v : SymbolId) :
    ((Operation.unify t v).apply b).2 = .ok () ∨
      ∀ depth, b.graph.meet depth t v = .endless := by
  cases hmeet : b.graph.meet b.graph.nestingDepth t v with
  | endless => exact .inr (TypeGraph.meet_eq_endless hwell.bound hmeet)
  | _ => exact .inl (by simp [Operation.apply, Groups.unify, hmeet])

theorem apply_bindType (b : Bindings) (s : SymbolId) (type : TypeId) :
    (b.graph.isBound s = true → (Operation.bindType s type).apply b =
      (b, .error (.symbolRebound (b.graph.symbolText s)))) ∧
    (b.graph.isBound s = false → ((Operation.bindType s type).apply b).2 = .ok ()) := by
  constructor <;> intro hs <;> simp [Operation.apply, Groups.bindType, hs]

/-- Groups stay uniform and every symbol settles once. After any run, a symbol that was joined with
others is listed once, in the list of the symbols that it is connected with. The members of a list are
all unbound or all bound to one type. No operation has changed a binding; none was refused but the
binding of a symbol that was bound, which had no effect, and the unification of types that can be
compared at no depth. The queues that were taken and the one that is left list each symbol that was
bound by an operation once, and no other symbol. -/
theorem groups_uniform_settled_once (h : Run b history) :
    (∀ s, b.groups.remembers s = true ↔ history.Remembers s) ∧
    (∀ s, history.Remembers s → b.groups.groups.flatten.count s = 1 ∧
      b.groups.groupOf s ∈ b.groups.groups ∧ ∀ x, x ∈ b.groups.groupOf s ↔ history.Connected s x) ∧
    (∀ t v, history.Remembers t → history.Remembers v →
      (b.groups.sameGroup t v = true ↔ ∃ group ∈ b.groups.groups, t ∈ group ∧ v ∈ group)) ∧
    (∀ group ∈ b.groups.groups, (∀ s ∈ group, b.graph.bound? s = none) ∨
      ∃ type, ∀ s ∈ group, b.graph.bound? s = some type) ∧
    (∀ p ∈ history, ∀ s type, p.1.graph.bound? s = some type → b.graph.bound? s = some type) ∧
    (∀ p t v, (p, Operation.unify t v) ∈ history → ((Operation.unify t v).apply p).2 = .ok () ∨
      ∀ depth, p.graph.meet depth t v = .endless) ∧
    (∀ p s type, (p, Operation.bindType s type) ∈ history →
      (p.graph.isBound s = true → (Operation.bindType s type).apply p =
        (p, .error (.symbolRebound (p.graph.symbolText s)))) ∧
      (p.graph.isBound s = false → ((Operation.bindType s type).apply p).2 = .ok ())) ∧
    (history.taken ++ b.groups.settled).Nodup ∧
    ∀ s, s ∈ history.taken ++ b.groups.settled ↔ s ∈ history.bound := by
  have hkept := h.kept
  refine ⟨hkept.remembers, ?_, ?_, ?_, ?_, ?_, ?_, ?_, ?_⟩
  · intro s hs
    exact ⟨hkept.count_flatten hs, Groups.groupOf_mem ((hkept.remembers s).mpr hs),
      hkept.connected s⟩
  · intro t v ht hv
    exact hkept.sameGroup_iff ht hv
  · intro group hgroup
    exact hkept.uniform.cases hgroup
  · intro p hp s type hs
    exact (hkept.grows p hp).bound hs
  · intro p t v hp
    exact apply_unify (h.wellformed_past _ hp) t v
  · intro p s type _
    exact apply_bindType p s type
  · exact hkept.queued.nodup_iff.mpr hkept.once
  · intro s
    exact hkept.queued.mem_iff

/-- A record and three symbols that are still to be bound. -/
def trio : TypeGraph where
  symbols := #[⟨"Int", some ⟨0⟩⟩, ⟨"", none⟩, ⟨"", none⟩, ⟨"", none⟩]
  types := #[{ symbol := ⟨0⟩, kind := .record }]

theorem trio_wellformed : Groups.Wellformed trio .empty := by
  refine ⟨?_, ?_, by simp [Groups.empty], by simp [Groups.Disjoint, Groups.empty]⟩
  · rintro ⟨_ | _ | _ | _ | n⟩ type hs
    all_goals cases hs
    decide
  · rintro ⟨_ | n⟩ e hp
    all_goals cases hp

/-- Three symbols are joined, the first one is bound by others, and the two that this settles are taken
from the queue. -/
theorem groups_uniform_settled_once_trio : ∃ b history, Run b history ∧
    history.joined = [(⟨1⟩, ⟨2⟩), (⟨3⟩, ⟨2⟩)] ∧ history.bound = [⟨2⟩, ⟨3⟩] ∧
    b.groups.groups = [[⟨3⟩, ⟨1⟩, ⟨2⟩]] ∧ b.graph.bound? ⟨3⟩ = some ⟨0⟩ ∧
    (history.taken ++ b.groups.settled).Nodup ∧
    (∀ s, s ∈ history.taken ++ b.groups.settled ↔ s ∈ history.bound) ∧
    ∀ x, x ∈ b.groups.groupOf ⟨1⟩ ↔ history.Connected ⟨1⟩ x := by
  have hfirst := Run.operate (.unify ⟨1⟩ ⟨2⟩) (.start trio_wellformed) .refl (fun _ _ => .inl rfl)
    ⟨by decide, by decide⟩
  have hsecond := Run.operate (.unify ⟨3⟩ ⟨2⟩) hfirst .refl (fun _ _ => .inl rfl)
    ⟨by decide, by decide⟩
  have hbind : Alters trio (trio.assign ⟨1⟩ ⟨0⟩) := .bind (s := ⟨1⟩) (t := ⟨0⟩) (by decide) rfl
  have hwithin : (trio.assign ⟨1⟩ ⟨0⟩).HasSymbol ⟨1⟩ := by decide
  have hthird := Run.operate (.settleBound ⟨1⟩) hsecond (.single hbind) ?_ hwithin
  · have hlast := Run.operate .takeSettled hthird .refl (fun _ _ => .inl rfl) trivial
    obtain ⟨-, hlisted, -, -, -, -, -, honce, hsettled⟩ := groups_uniform_settled_once hlast
    obtain ⟨-, -, hconnected⟩ := hlisted ⟨1⟩ ⟨(⟨1⟩, ⟨2⟩), by decide, .inl rfl⟩
    exact ⟨_, _, hlast, by decide, by decide, by decide, by decide, honce, hsettled, hconnected⟩
  · intro s _
    by_cases hs : s = ⟨1⟩
    · exact .inr (hs ▸ rfl)
    · left
      rw [TypeGraph.bound?_assign (by decide), if_neg hs]
      rfl

end Bindings
end Binder
