import Binder.Proofs.Inference.Linear
import Binder.Proofs.TypeGraph.Settled
import Binder.Proofs.Unify.Grouping

/-! Inference over a module whose types are all built. The only unbound symbols that come up are those
of the values of the module, and comparing symbols always ends. As long as nothing was reported, no
node has the error type. -/
namespace Binder

namespace TypeGraph

variable {g : TypeGraph} {t : TypeId}

theorem isErrorType_eq {g' : TypeGraph} (hg : Grows g g') (ht : g.HasType t) :
    g'.isErrorType t = g.isErrorType t := by
  obtain ⟨d, hd⟩ := ht.exists_def?
  simp [isErrorType, hd, hg.defs hd]

theorem isError_eq_isErrorType {s : SymbolId} (h : g.bound? s = some t) :
    g.isError s = g.isErrorType t := by
  simp [isError, typeOf?, isErrorType, h]

end TypeGraph

namespace Inference

open Binder.Tree (Expr Mark NodeId)

variable {V : List SymbolId} {D : Prop}

/-- A symbol that a node may have: that of a value or a bound one. `D` tells whether nothing was
reported outside of inference. -/
def State.Sound (V : List SymbolId) (D : Prop) (s : State) (x : SymbolId) : Prop :=
  (x ∈ V ∨ s.graph.isBound x) ∧ (s.diagnostics = [] → D → x ≠ Prelude.error)

def State.SoundType (D : Prop) (s : State) (t : TypeId) : Prop :=
  s.graph.HasType t ∧ (s.diagnostics = [] → D → s.graph.isErrorType t = false)

/-- A verdict that gives a node a symbol that it may have. -/
def Verdict.Sound (V : List SymbolId) (D : Prop) (s : State) (v : Verdict) : Prop :=
  (v.symbol ∈ V ∨ s.graph.isBound v.symbol) ∧
    (v.fault = none → s.diagnostics = [] → D → v.symbol ≠ Prelude.error)

theorem State.Sound.verdict {s : State} {x : SymbolId} (h : s.Sound V D x) :
    Verdict.Sound V D s ⟨x, none⟩ := ⟨h.1, fun _ => h.2⟩

/-- What may wait for a symbol when nobody observes. -/
def WhenBound.Valid (V : List SymbolId) (D : Prop) (g : TypeGraph) : WhenBound → Prop
  | .select _ _ | .deliver _ _ => True
  | .compare expected _ => g.isBound expected ∧ expected ∉ V ∧ (D → expected ≠ Prelude.error)
  | .observe _ _ => False

/-- What may wait for a node when nobody observes. -/
def WhenTyped.Valid (V : List SymbolId) (D : Prop) (g : TypeGraph) : WhenTyped → Prop
  | .resolve _ next => next.Valid V D g
  | .copy _ => True
  | .initialise value _ => value ∈ V
  | .observe _ _ => False

def Task.Valid (V : List SymbolId) (D : Prop) (s : State) : Task → Prop
  | .infer _ | .wake _ | .settle | .note _ => True
  | .mismatch expected found _ => s.Sound V D expected ∧ s.Sound V D found
  | .record _ symbol => s.Sound V D symbol
  | .pend _ next => next.Valid V D s.graph
  | .pendType symbol _ next => s.Sound V D symbol ∧ next.Valid V D s.graph
  | .typed next symbol => next.Valid V D s.graph ∧ s.Sound V D symbol
  | .bound next t => next.Valid V D s.graph ∧ s.SoundType D t
  | .act _ _ => False

namespace State

variable {s s' : State} {x : SymbolId} {t : TypeId} {next : WhenBound}

/-- The graph has only grown, and what was reported is still reported. -/
structure Later (s s' : State) : Prop where
  graph : s.graph.Grows s'.graph
  reported : s'.diagnostics = [] → s.diagnostics = []

theorem Sound.mem_of_unbound (h : s.Sound V D x) (hnone : s.graph.bound? x = none) : x ∈ V := by
  refine h.1.resolve_right fun hbound => ?_
  rw [TypeGraph.isBound, hnone] at hbound
  cases hbound

theorem Later.refl (s : State) : s.Later s := ⟨.refl _, id⟩

theorem Later.sound (h : s.Later s') (hx : s.Sound V D x) : s'.Sound V D x :=
  ⟨hx.1.imp_right h.graph.isBound, fun hclean => hx.2 (h.reported hclean)⟩

theorem Later.soundType (h : s.Later s') (ht : s.SoundType D t) : s'.SoundType D t := by
  refine ⟨h.graph.hasType ht.1, fun hclean hD => ?_⟩
  rw [TypeGraph.isErrorType_eq h.graph ht.1]
  exact ht.2 (h.reported hclean) hD

theorem Later.whenBound (h : s.Later s') (hn : next.Valid V D s.graph) :
    next.Valid V D s'.graph := by
  cases next with
  | select | deliver => trivial
  | compare expected origin => exact ⟨h.graph.isBound hn.1, hn.2⟩
  | observe => exact hn

theorem Later.whenTyped (h : s.Later s') {next : WhenTyped} (hn : next.Valid V D s.graph) :
    next.Valid V D s'.graph := by
  cases next with
  | resolve origin next => exact h.whenBound hn
  | copy => trivial
  | initialise => exact hn
  | observe => exact hn

theorem Later.task (h : s.Later s') {task : Task} (ht : task.Valid V D s) :
    task.Valid V D s' := by
  cases task with
  | infer | wake | settle | note => trivial
  | mismatch => exact ⟨h.sound ht.1, h.sound ht.2⟩
  | record => exact h.sound ht
  | pend => exact h.whenTyped ht
  | pendType => exact ⟨h.sound ht.1, h.whenBound ht.2⟩
  | typed => exact ⟨h.whenTyped ht.1, h.sound ht.2⟩
  | bound => exact ⟨h.whenBound ht.1, h.soundType ht.2⟩
  | act => exact ht

/-- The state of inference in a module whose types are built, and the tasks that are due in it. -/
structure Tidy (V : List SymbolId) (D : Prop) (s : State) (ts : List Task) : Prop where
  graph : s.graph.Settled V D
  members : ∀ group ∈ s.groups.groups, ∀ x ∈ group, x ∈ V
  disjoint : s.groups.Disjoint
  /-- the symbols of a group are all unbound or all bound to one type -/
  uniform : ∀ group ∈ s.groups.groups, ∀ x ∈ group, ∀ y ∈ group,
    s.graph.bound? x = s.graph.bound? y
  scope : ∀ {name m}, s.scope.find? name = some (.value m) → s.Sound V D m.type
  typed : ∀ p ∈ s.typed, s.Sound V D p.2
  values : ∀ x ∈ V, ∀ {t}, s.graph.bound? x = some t → s.SoundType D t
  waiting : ∀ w ∈ s.waiting, w.2.Valid V D s.graph
  blocked : ∀ w ∈ s.blocked, w.1 ∈ V ∧ w.2.2.Valid V D s.graph
  slots : ∀ {call : Nat} {gathering : Gathering}, s.calls[call]? = some gathering →
    ∀ {t}, some t ∈ gathering.slots → s.SoundType D t
  tasks : ∀ task ∈ ts, task.Valid V D s

def take (s : State) (z : SymbolId) (t : TypeId) : State :=
  { s with
    graph := (s.groups.spread s.graph t (z :: s.groups.groupOf z)).1
    groups := (s.groups.spread s.graph t (z :: s.groups.groupOf z)).2 }

def join (s : State) (x y : SymbolId) : State := { s with groups := s.groups.join x y }

namespace Tidy

variable {ts rest new : List Task} {task : Task} {z y : SymbolId} {slot : Nat}

theorem sound_rejected (h : s.Tidy V D ts) (fault : Fault) : (Verdict.rejected fault).Sound V D s :=
  ⟨.inr h.graph.error_bound, nofun⟩

theorem sound_silent (h : s.Tidy V D ts) (hreported : s.diagnostics = [] → D → False) :
    Verdict.silent.Sound V D s :=
  ⟨.inr h.graph.error_bound, fun _ hclean hD _ => hreported hclean hD⟩

theorem sound_builtin (h : s.Tidy V D ts) (b : Builtin) : s.Sound V D b.symbol :=
  ⟨.inr (h.graph.builtin_bound b), fun _ _ => by cases b <;> decide⟩

theorem sound_use (h : s.Tidy V D ts) {d : TypeDef} (hd : s.graph.def? t = some d)
    (hx : x ∈ d.uses) : s.Sound V D x :=
  have huses := h.graph.uses hd hx
  ⟨.inr huses.1, fun _ hD => huses.2.2 hD⟩

theorem soundType_of_bound (h : s.Tidy V D ts) (hx : s.Sound V D x)
    (hb : s.graph.bound? x = some t) : s.SoundType D t := by
  by_cases hV : x ∈ V
  · exact h.values x hV hb
  · refine ⟨h.graph.types hb, fun hclean hD => ?_⟩
    by_contra herr
    rw [Bool.not_eq_false, ← TypeGraph.isError_eq_isErrorType hb] at herr
    exact hx.2 hclean hD (h.graph.error hV herr)

theorem keep (h : s.Tidy V D (task :: rest)) (hgraph : s'.graph = s.graph)
    (hgroups : s'.groups.groups = s.groups.groups) (hscope : s'.scope = s.scope)
    (hcalls : s'.calls = s.calls) (hreported : s'.diagnostics = [] → s.diagnostics = [])
    (htyped : ∀ p ∈ s'.typed, p ∈ s.typed ∨ s.Sound V D p.2)
    (hwaiting : ∀ w ∈ s'.waiting, w ∈ s.waiting ∨ w.2.Valid V D s.graph)
    (hblocked : ∀ w ∈ s'.blocked, w ∈ s.blocked ∨ w.1 ∈ V ∧ w.2.2.Valid V D s.graph)
    (hnew : ∀ u ∈ new, u.Valid V D s') : s'.Tidy V D (new ++ rest) := by
  have hlater : s.Later s' := ⟨hgraph ▸ .refl _, hreported⟩
  refine
    { graph := hgraph ▸ h.graph
      members := hgroups ▸ h.members
      disjoint := by simpa only [Groups.Disjoint, hgroups] using h.disjoint
      uniform := by rw [hgroups, hgraph]; exact h.uniform
      scope := fun hfind => hlater.sound (h.scope (hscope ▸ hfind))
      typed := fun p hp => hlater.sound ((htyped p hp).elim (h.typed p) id)
      values := fun x hx _ hb => hlater.soundType (h.values x hx (hgraph ▸ hb))
      waiting := fun w hw => hlater.whenTyped ((hwaiting w hw).elim (h.waiting w) id)
      blocked := fun w hw => ?_
      slots := fun hcall _ ht => hlater.soundType (h.slots (hcalls ▸ hcall) ht)
      tasks := fun u hu => ?_ }
  · have hw := (hblocked w hw).elim (h.blocked w) id
    exact ⟨hw.1, hlater.whenBound hw.2⟩
  · rcases List.mem_append.mp hu with hu | hu
    · exact hnew u hu
    · exact hlater.task (h.tasks u (List.mem_cons_of_mem _ hu))

theorem later_take (s : State) (z : SymbolId) (t : TypeId) : s.Later (s.take z t) :=
  ⟨TypeGraph.grows_bindAll t (z :: s.groups.groupOf z), id⟩

theorem groupOf_subset (h : s.Tidy V D ts) (hz : z ∈ V) :
    ∀ x ∈ z :: s.groups.groupOf z, x ∈ V := by
  intro x hx
  rcases List.mem_cons.mp hx with rfl | hx
  · exact hz
  · rcases Groups.mem_groupOf_cases hx with hmem | rfl
    · exact h.members _ hmem x hx
    · exact hz

theorem groupOf_unbound (h : s.Tidy V D ts) (hz : z ∈ V)
    (hnone : s.graph.bound? z = none) :
    ∀ x ∈ z :: s.groups.groupOf z, s.graph.isUnbound x := by
  intro x hx
  have hV := h.groupOf_subset hz x hx
  refine TypeGraph.isUnbound_iff.mpr ⟨(h.graph.values x hV).2, ?_⟩
  rcases List.mem_cons.mp hx with rfl | hx
  · exact hnone
  · rcases Groups.mem_groupOf_cases hx with hmem | rfl
    · rw [h.uniform _ hmem x hx z (s.groups.mem_groupOf_self z), hnone]
    · exact hnone

theorem bound?_take (h : s.Tidy V D ts) (hz : z ∈ V)
    (hnone : s.graph.bound? z = none) (t : TypeId) (x : SymbolId) :
    (s.take z t).graph.bound? x =
      if x ∈ z :: s.groups.groupOf z then some t else s.graph.bound? x := by
  rw [take, Groups.fst_spread, TypeGraph.bound?_bindAll]
  by_cases hx : x ∈ z :: s.groups.groupOf z
  · rw [if_pos ⟨hx, h.groupOf_unbound hz hnone x hx⟩, if_pos hx]
  · rw [if_neg (fun hc => hx hc.1), if_neg hx]

theorem take (h : s.Tidy V D ts) (hz : z ∈ V) (hnone : s.graph.bound? z = none)
    (ht : s.SoundType D t) : (s.take z t).Tidy V D ts := by
  have hlater := later_take s z t
  refine
    { graph := h.graph.bindAll ht.1 (h.groupOf_subset hz)
      members := h.members
      disjoint := h.disjoint
      uniform := ?_
      scope := fun hfind => hlater.sound (h.scope hfind)
      typed := fun p hp => hlater.sound (h.typed p hp)
      values := ?_
      waiting := fun w hw => hlater.whenTyped (h.waiting w hw)
      blocked := fun w hw => ⟨(h.blocked w hw).1, hlater.whenBound (h.blocked w hw).2⟩
      slots := fun hcall _ hin => hlater.soundType (h.slots hcall hin)
      tasks := fun u hu => hlater.task (h.tasks u hu) }
  · intro group hgroup x hx y hy
    have hgroup : group ∈ s.groups.groups := hgroup
    rw [bound?_take h hz hnone, bound?_take h hz hnone]
    by_cases hzg : z ∈ group
    · -- This is the group of the value, all of which takes the type.
      have hsame := Groups.groupOf_eq h.disjoint hgroup hzg
      rw [if_pos (List.mem_cons_of_mem _ (hsame ▸ hx)), if_pos (List.mem_cons_of_mem _ (hsame ▸ hy))]
    · have hout : ∀ w ∈ group, w ∉ z :: s.groups.groupOf z := by
        intro w hw hmem
        rcases List.mem_cons.mp hmem with rfl | hmem
        · exact hzg hw
        · exact Groups.disjoint_groupOf h.disjoint hgroup hzg hmem hw
      rw [if_neg (hout x hx), if_neg (hout y hy)]
      exact h.uniform group hgroup x hx y hy
  · intro x hx v hb
    rw [bound?_take h hz hnone] at hb
    split at hb
    · cases hb
      exact hlater.soundType ht
    · exact hlater.soundType (h.values x hx hb)

theorem join (h : s.Tidy V D ts) (hx : x ∈ V) (hy : y ∈ V)
    (hxn : s.graph.bound? x = none) (hyn : s.graph.bound? y = none) :
    (s.join x y).Tidy V D ts := by
  by_cases hin : y ∈ s.groups.groupOf x
  · have heq : s.join x y = s := by rw [State.join, Groups.join_eq_self hin]
    rwa [heq]
  have hunbound : ∀ w ∈ s.groups.groupOf x ++ s.groups.groupOf y, s.graph.bound? w = none := by
    intro w hw
    rcases List.mem_append.mp hw with hw | hw
    · exact (TypeGraph.isUnbound_iff.mp
        (h.groupOf_unbound hx hxn w (List.mem_cons_of_mem _ hw))).2
    · exact (TypeGraph.isUnbound_iff.mp
        (h.groupOf_unbound hy hyn w (List.mem_cons_of_mem _ hw))).2
  refine { h with members := ?_, disjoint := Groups.disjoint_join h.disjoint x y, uniform := ?_,
                  scope := h.scope, values := h.values, slots := h.slots, tasks := ?_ }
  · intro group hgroup w hw
    rcases (Groups.mem_join_groups hin).mp hgroup with rfl | ⟨hold, -, -⟩
    · rcases List.mem_append.mp hw with hw | hw
      · exact h.groupOf_subset hx w (List.mem_cons_of_mem _ hw)
      · exact h.groupOf_subset hy w (List.mem_cons_of_mem _ hw)
    · exact h.members group hold w hw
  · intro group hgroup w hw w' hw'
    rcases (Groups.mem_join_groups hin).mp hgroup with rfl | ⟨hold, -, -⟩
    · exact (hunbound w hw).trans (hunbound w' hw').symm
    · exact h.uniform group hold w hw w' hw'
  · intro u hu
    have hlater : s.Later (s.join x y) := ⟨.refl _, id⟩
    exact hlater.task (h.tasks u hu)

theorem unify_eq_take (hx : s.graph.bound? x = none)
    (hy : s.graph.bound? y = some t) : s.unify x y = .ok (true, s.take x t) := by
  have hne : x ≠ y := by
    rintro rfl
    cases hx.symm.trans hy
  simp [unify, Groups.unify, TypeGraph.nestingDepth, TypeGraph.meet, hne, hx, hy, State.take]

/-- What the unification of two symbols of nodes or values can do. -/
theorem unify_cases (h : s.Tidy V D ts) (hx : s.Sound V D x)
    (hy : s.Sound V D y) :
    (∃ unified, s.unify x y = .ok (unified, s) ∧
      (unified = true → s.graph.SameUpToSize x y)) ∨
    (∃ z w t, (z = x ∧ w = y ∨ z = y ∧ w = x) ∧ z ∈ V ∧ s.graph.bound? z = none ∧
      s.graph.bound? w = some t ∧ s.unify x y = .ok (true, s.take z t)) ∨
    (x ∈ V ∧ y ∈ V ∧ x ≠ y ∧ s.graph.bound? x = none ∧ s.graph.bound? y = none ∧
      s.unify x y = .ok (true, s.join x y)) := by
  have hmeet : s.graph.meet s.graph.nestingDepth x y ≠ .endless :=
    TypeGraph.meet_ne_endless h.graph.ranked
  by_cases heq : x = y
  · subst heq
    refine .inl ⟨true, ?_, fun _ => .refl x⟩
    simp [unify, Groups.unify, TypeGraph.nestingDepth, TypeGraph.meet]
  · cases hbx : s.graph.bound? x with
    | none =>
      cases hby : s.graph.bound? y with
      | none =>
        refine .inr (.inr ⟨hx.mem_of_unbound hbx, hy.mem_of_unbound hby, heq, rfl, rfl, ?_⟩)
        simp [unify, Groups.unify, TypeGraph.nestingDepth, TypeGraph.meet, heq, hbx, hby,
          State.join]
      | some t =>
        exact .inr (.inl ⟨x, y, t, .inl ⟨rfl, rfl⟩, hx.mem_of_unbound hbx, hbx, hby,
          unify_eq_take hbx hby⟩)
    | some t =>
      cases hby : s.graph.bound? y with
      | none =>
        refine .inr (.inl ⟨y, x, t, .inr ⟨rfl, rfl⟩, hy.mem_of_unbound hby, hby, hbx, ?_⟩)
        simp [unify, Groups.unify, TypeGraph.nestingDepth, TypeGraph.meet, heq, hbx, hby,
          State.take]
      | some v =>
        left
        have hxb : s.graph.isBound x := TypeGraph.isBound_iff.mpr ⟨t, hbx⟩
        have hyb : s.graph.isBound y := TypeGraph.isBound_iff.mpr ⟨v, hby⟩
        have hcases : s.graph.meet s.graph.nestingDepth x y = .same ∨
            s.graph.meet s.graph.nestingDepth x y = .clash ∨
            s.graph.meet s.graph.nestingDepth x y = .endless := h.graph.meet_bound hxb hyb
        rcases hcases with hsame | hclash | hend
        · refine ⟨true, ?_, fun _ => TypeGraph.sameUpToSize_of_meet hsame⟩
          simp [unify, Groups.unify, hsame]
        · refine ⟨false, ?_, fun hfalse => absurd hfalse (by simp)⟩
          simp [unify, Groups.unify, hclash]
        · exact absurd hend hmeet

theorem replace (h : s.Tidy V D (task :: rest)) (hnew : ∀ u ∈ new, u.Valid V D s) :
    s.Tidy V D (new ++ rest) :=
  h.keep rfl rfl rfl rfl id (fun _ => .inl) (fun _ => .inl) (fun _ => .inl) hnew

theorem pronounce (h : s.Tidy V D (task :: rest)) {v : Verdict} (hv : v.Sound V D s) (node : Mark) :
    (s.pronounce node v).2.Tidy V D ((s.pronounce node v).1 ++ rest) := by
  have hs := undisturbed_pronounce s node v
  have hclean : (s.pronounce node v).2.diagnostics = [] → s.diagnostics = [] ∧ v.fault = none := by
    simp [diagnostics_pronounce]
  refine h.keep hs.graph (by rw [hs.groups]) hs.scope (calls_pronounce node v)
    (fun hnil => (hclean hnil).1) (fun _ hp => .inl (hs.typed ▸ hp))
    (fun _ hw => .inl (hs.waiting ▸ hw)) (fun _ hw => .inl (hs.blocked ▸ hw)) ?_
  refine List.forall_mem_singleton.mpr ⟨hs.graph ▸ hv.1, fun hnil => ?_⟩
  exact hv.2 (hclean hnil).2 (hclean hnil).1

theorem mismatch (h : s.Tidy V D (task :: rest)) (expected found : SymbolId) (origin : Span) :
    (s.mismatch expected found origin).Tidy V D rest := by
  unfold State.mismatch
  split
  · exact show s.Tidy V D ([] ++ rest) from h.replace (by simp)
  · show State.Tidy V D (s.report origin _) ([] ++ rest)
    have hreported : ∀ fault, (s.report origin fault).diagnostics ≠ [] := by simp [report]
    exact h.keep rfl rfl rfl rfl (fun hclean => absurd hclean (hreported _)) (fun _ => .inl)
      (fun _ => .inl) (fun _ => .inl) (by simp)

theorem sound_ofName (h : s.Tidy V D ts) (name : String) :
    (Verdict.ofName s.scope name).Sound V D s := by
  unfold Verdict.ofName
  split
  next hfind => exact (h.scope hfind).verdict
  next => exact h.sound_rejected _
  next => exact h.sound_rejected _

theorem sound_ofMember (h : s.Tidy V D ts) (ht : s.SoundType D t) (member : String) :
    (Verdict.ofMember s.graph member t).Sound V D s := by
  unfold Verdict.ofMember
  split
  next herror =>
    refine h.sound_silent fun hclean hD => ?_
    rw [ht.2 hclean hD] at herror
    cases herror
  next =>
    split
    next hfind =>
      obtain ⟨d, hd, hm⟩ := Option.bind_eq_some_iff.mp hfind
      exact (h.sound_use hd (TypeDef.member_mem_uses hm)).verdict
    next => exact h.sound_rejected _

theorem sound_ofCall {types : List TypeId} (h : s.Tidy V D ts) (hne : types ≠ [])
    (htypes : ∀ t ∈ types, s.SoundType D t) (names : List (Option String)) :
    (Verdict.ofCall s.graph names types).Sound V D s := by
  obtain ⟨target, arguments, rfl⟩ := List.exists_cons_of_ne_nil hne
  rw [Verdict.ofCall]
  split
  next herror =>
    refine h.sound_silent fun hclean hD => ?_
    obtain ⟨t, ht, hbad⟩ := List.any_eq_true.mp herror
    rw [(htypes t ht).2 hclean hD] at hbad
    cases hbad
  next =>
    split
    next => exact h.sound_rejected _
    next =>
      split
      next signature hselect =>
        obtain ⟨d, hd⟩ := (htypes target List.mem_cons_self).1.exists_def?
        have hmem := List.mem_of_find?_eq_some hselect
        rw [hd] at hmem
        exact (h.sound_use hd (TypeDef.signature_mem_uses hmem List.mem_cons_self)).verdict
      next => exact h.sound_rejected _

theorem infer {e : Expr} (h : s.Tidy V D (.infer e :: rest)) :
    (s.infer e).2.Tidy V D ((s.infer e).1 ++ rest) := by
  cases e with
  | literal node value => exact h.pronounce (h.sound_builtin _).verdict node
  | ident node name =>
    rw [infer_ident]
    exact h.pronounce (h.sound_ofName name) node
  | selection | namedArgument =>
    exact h.replace (List.forall_mem_cons.mpr ⟨trivial, List.forall_mem_singleton.mpr trivial⟩)
  | call node target arguments =>
    have hopened : State.Tidy V D { s with calls := s.calls.push (.start node arguments) }
        (.infer (.call node target arguments) :: rest) := by
      refine { h with scope := h.scope, values := h.values, slots := ?_ }
      intro call gathering hcall t ht
      rw [Array.getElem?_push] at hcall
      split at hcall
      · cases hcall
        simp [Gathering.start] at ht
      · exact h.slots hcall ht
    apply hopened.replace
    intro u hu
    obtain ⟨_, _, -, rfl | rfl⟩ := mem_gather hu <;> trivial
  | sequence | definition | typeLiteral | arrayType | referenceType | extension =>
    exact h.pronounce (h.sound_rejected .unknownNode) _

theorem filterMap_slots_ne_nil {slots : List (Option TypeId)} {t : TypeId}
    (h : slot < slots.length) : (slots.set slot (some t)).filterMap id ≠ [] := by
  have hmem : some t ∈ slots.set slot (some t) := List.mem_set h (some t)
  intro hnil
  have hin : t ∈ (slots.set slot (some t)).filterMap id :=
    List.mem_filterMap.mpr ⟨some t, hmem, rfl⟩
  rw [hnil] at hin
  cases hin

theorem deliver {call : Nat} (h : s.Tidy V D (.bound (.deliver call slot) t :: rest))
    (hl : s.Delivering (.bound (.deliver call slot) t :: rest)) :
    (s.deliver call slot t).2.Tidy V D ((s.deliver call slot t).1 ++ rest) := by
  obtain ⟨gathering, hcall, hslot⟩ := hl.slot_of_deliver
  obtain ⟨-, ht⟩ := h.tasks (.bound (.deliver call slot) t) List.mem_cons_self
  have hslots : ∀ v, some v ∈ (gathering.fill slot t).slots → s.SoundType D v := by
    intro v hv
    rcases List.mem_or_eq_of_mem_set hv with hv | hv
    · exact h.slots hcall hv
    · cases hv
      exact ht
  have hfiled : State.Tidy V D
      { s with calls := s.calls.setIfInBounds call (gathering.fill slot t) }
      (.bound (.deliver call slot) t :: rest) := by
    refine { h with scope := h.scope, values := h.values, slots := ?_ }
    intro call' gathering' hcall' v hv
    simp only [Array.getElem?_setIfInBounds] at hcall'
    split at hcall'
    · split at hcall'
      · cases hcall'
        exact hslots v hv
      · cases hcall'
    · exact h.slots hcall' hv
  rw [deliver_eq hcall, resolve_eq_pronounce]
  split
  · refine hfiled.pronounce (hfiled.sound_ofCall ?_ ?_ _) _
    · exact filterMap_slots_ne_nil (List.getElem?_eq_some_iff.mp hslot).1
    · intro v hv
      obtain ⟨a, ha, rfl⟩ := List.mem_filterMap.mp hv
      exact hslots v ha
  · exact hfiled.replace (by simp)

theorem onBound (h : s.Tidy V D (.bound next t :: rest))
    (hl : s.Delivering (.bound next t :: rest)) :
    (s.onBound next t).2.Tidy V D ((s.onBound next t).1 ++ rest) := by
  obtain ⟨hnext, ht⟩ := h.tasks (.bound next t) List.mem_cons_self
  cases next with
  | select node member =>
    rw [State.onBound, select_eq_pronounce]
    exact h.pronounce (h.sound_ofMember ht member) node
  | deliver call slot => exact h.deliver hl
  | compare expected origin =>
    simp only [State.onBound]
    split
    · exact h.replace (by simp)
    · exact h.mismatch ..
  | observe => exact hnext.elim

theorem unify (h : s.Tidy V D ts) (hx : s.Sound V D x) (hy : s.Sound V D y) :
    ∃ unified s', s.unify x y = .ok (unified, s') ∧ s.Later s' ∧ s'.Tidy V D ts := by
  rcases h.unify_cases hx hy with ⟨unified, hu, -⟩ | ⟨z, w, t, hzw, hz, hnone, hw, hu⟩ |
    ⟨hxV, hyV, -, hxn, hyn, hu⟩
  · exact ⟨unified, s, hu, .refl s, h⟩
  · refine ⟨true, s.take z t, hu, later_take s z t, h.take hz hnone ?_⟩
    rcases hzw with ⟨-, rfl⟩ | ⟨-, rfl⟩
    · exact h.soundType_of_bound hy hw
    · exact h.soundType_of_bound hx hw
  · exact ⟨true, s.join x y, hu, ⟨.refl _, id⟩, h.join hxV hyV hxn hyn⟩

theorem sound_value (h : s.Tidy V D ts) (hx : x ∈ V) : s.Sound V D x :=
  ⟨.inl hx, fun _ _ herror => h.graph.error_notMem (herror ▸ hx)⟩

theorem exists_step (h : s.Tidy V D (task :: rest)) (hl : s.Linear (task :: rest)) :
    ∃ new s', s.step task = .ok (new, s') := by
  have htask := h.tasks task List.mem_cons_self
  apply State.exists_step
  · rintro node symbol rfl
    simpa using hl.untyped
  · rintro value origin symbol rfl
    obtain ⟨unified, s', hu, -⟩ := h.unify (h.sound_value htask.1) htask.2
    exact ⟨unified, s', hu⟩
  · rintro a symbol rfl
    exact htask

theorem keeps_step (h : s.Tidy V D (task :: rest)) (hl : s.Delivering (task :: rest))
    (hs : s.step task = .ok (new, s')) : s'.Tidy V D (new ++ rest) := by
  have htask := h.tasks task List.mem_cons_self
  have hwaiting : ∀ w ∈ s'.waiting, w ∈ s.waiting ∨ w.2.Valid V D s.graph := by
    intro w hw
    refine (waiting_step hs hw).imp_right ?_
    rintro rfl
    exact htask
  have hblocked : ∀ w ∈ s'.blocked, w ∈ s.blocked ∨ w.1 ∈ V ∧ w.2.2.Valid V D s.graph := by
    intro w hw
    refine (blocked_step hs hw).imp_right ?_
    rintro ⟨rfl, hnone⟩
    exact ⟨htask.1.mem_of_unbound hnone, htask.2⟩
  cases move_step hs with
  | infer => exact h.infer
  | record =>
    refine h.keep rfl rfl rfl rfl id ?_ hwaiting hblocked ?_
    · intro p hp
      rcases List.mem_cons.mp hp with rfl | hp
      · exact .inr htask
      · exact .inl hp
    · intro u hu
      obtain ⟨w, hw, rfl⟩ := List.mem_map.mp hu
      exact ⟨h.waiting w (List.mem_of_mem_filter hw), htask⟩
  | @told node next symbol hsymbol =>
    obtain ⟨l₁, l₂, heq, -⟩ := List.lookup_eq_some_iff.mp hsymbol
    exact h.replace (List.forall_mem_singleton.mpr ⟨htask, h.typed (node, symbol) (by simp [heq])⟩)
  | shown ht =>
    exact h.replace (List.forall_mem_singleton.mpr ⟨htask.2, h.soundType_of_bound htask.1 ht⟩)
  | resolve => exact h.replace (List.forall_mem_singleton.mpr htask.symm)
  | copy => exact h.replace (List.forall_mem_singleton.mpr htask.2)
  | @initialise value symbol origin unified graph groups hu =>
    have hvalue := h.sound_value htask.1
    obtain ⟨unified, s', hu', hlater, htidy⟩ := h.unify hvalue htask.2
    cases hu.symm.trans hu'
    apply htidy.replace
    intro u hu
    rcases List.mem_cons.mp hu with rfl | hu
    · trivial
    · cases unified with
      | true => cases hu
      | false =>
        rw [List.mem_singleton.mp hu]
        exact ⟨hlater.sound hvalue, hlater.sound htask.2⟩
  | bound => exact h.onBound hl
  | @wake symbol t ht =>
    refine h.keep rfl rfl rfl rfl id (fun _ => .inl) hwaiting hblocked ?_
    intro u hu
    obtain ⟨w, hw, rfl⟩ := List.mem_map.mp hu
    obtain ⟨hmem, heq⟩ := List.mem_filter.mp hw
    obtain ⟨hV, hnext⟩ := h.blocked w hmem
    rw [of_decide_eq_true heq] at hV
    exact ⟨hnext, h.values symbol hV ht⟩
  | settle =>
    refine h.keep rfl rfl rfl rfl id (fun _ => .inl) hwaiting hblocked ?_
    refine List.forall_mem_append.mpr ⟨?_, List.forall_mem_singleton.mpr trivial⟩
    exact List.forall_mem_map.mpr fun _ _ => trivial
  | wait | block | sleep | rest | note =>
    exact h.keep rfl rfl rfl rfl id (fun _ => .inl) hwaiting hblocked nofun
  | mismatch => exact h.mismatch ..
  | observe => exact htask.1.elim
  | _ => exact htask.elim

/-- In a tidy state in which every node gets its symbol once, each step succeeds. -/
theorem step (h : s.Tidy V D (task :: rest)) (hl : s.Linear (task :: rest)) :
    ∃ new s', s.step task = .ok (new, s') ∧ s'.Tidy V D (new ++ rest) := by
  obtain ⟨new, s', hs⟩ := h.exists_step hl
  exact ⟨new, s', hs, h.keeps_step hl.toDelivering hs⟩

end Tidy
end State
end Inference
end Binder
