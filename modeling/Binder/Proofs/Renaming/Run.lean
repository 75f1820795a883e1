import Binder.Proofs.Inference.Wakeup
import Binder.Proofs.Renaming.Graph

/-! Runs of inference under other numbers. Two states that hold the same under other numbers go on
alike, task by task, until none is left. -/
namespace Binder

open Binder.Tree (Expr Mark NodeId)
open Binder.Inference (Act Gathering State Task WhenBound WhenTyped)

variable {t v : SymbolId} {unified : Bool}

namespace Renumbering

variable (ρ : Renumbering)

mutual

def whenTyped : WhenTyped → WhenTyped
  | .resolve origin next => .resolve origin (whenBound next)
  | .copy node => .copy (ρ.node node)
  | .initialise value origin => .initialise value origin
  | .observe tag acts => .observe tag (actions acts)

def whenBound : WhenBound → WhenBound
  | .select node member => .select (ρ.mark node) member
  | .deliver call slot => .deliver (ρ.call call) slot
  | .compare expected origin => .compare expected origin
  | .observe tag acts => .observe tag (actions acts)

def act : Act → Act
  | .infer e => .infer (ρ.expr e)
  | .record node => .record (ρ.node node)
  | .pend node next => .pend (ρ.node node) (whenTyped next)
  | .pendType symbol origin next => .pendType symbol origin (whenBound next)
  | .unify symbol => .unify symbol
  | .bound symbol => .bound symbol

def actions : List Act → List Act
  | [] => []
  | a :: rest => act a :: actions rest

end

end Renumbering

namespace Renaming

variable (ρ : Renaming)

def task : Task → Task
  | .infer e => .infer (ρ.expr e)
  | .record node symbol => .record (ρ.node node) symbol
  | .pend node next => .pend (ρ.node node) (ρ.whenTyped next)
  | .pendType symbol origin next => .pendType symbol origin (ρ.whenBound next)
  | .typed next symbol => .typed (ρ.whenTyped next) symbol
  | .bound next t => .bound (ρ.whenBound next) (ρ.type t)
  | .act a symbol => .act (ρ.act a) symbol
  | task => task

def gathering (x : Gathering) : Gathering :=
  { x with call := ρ.mark x.call, slots := x.slots.map (Option.map ρ.type) }

end Renaming

namespace Inference.State

/-- The second state holds what the first one holds, under other numbers. -/
structure Renamed (ρ : Renaming) (s s' : State) : Prop where
  graph : s.graph.Renamed ρ s'.graph
  groups : s'.groups = s.groups
  scope : s'.scope = s.scope
  typed : s'.typed = s.typed.map fun w => (ρ.node w.1, w.2)
  waiting : s'.waiting = s.waiting.map fun w => (ρ.node w.1, ρ.whenTyped w.2)
  blocked : s'.blocked = s.blocked.map fun w => (w.1, w.2.1, ρ.whenBound w.2.2)
  calls : ∀ i, s'.calls[ρ.call i]? = (s.calls[i]?).map ρ.gathering
  nextCall : ∀ k, ρ.call (s.calls.size + k) = s'.calls.size + k
  diagnostics : s'.diagnostics = s.diagnostics
  journal : s'.journal = s.journal

/-- Two steps come to the same tasks and the same state. -/
structure Tracks (ρ : Renaming) (x x' : List Task × State) : Prop where
  tasks : x'.1 = x.1.map ρ.task
  state : x.2.Renamed ρ x'.2

variable {ρ : Renaming} {s s' s₁ : State}

namespace Renamed

variable {x : List Task × State} {symbol : SymbolId}

section

variable (h : s.Renamed ρ s')
include h

theorem report (span : Span) (fault : Fault) : (s.report span fault).Renamed ρ (s'.report span fault) :=
  { h with
    diagnostics := by simp only [State.report, h.diagnostics] }

theorem note (line : Option String) : (s.note line).Renamed ρ (s'.note line) :=
  { h with
    journal := by simp only [State.note, h.journal] }

theorem reject (node : Mark) (fault : Fault) :
    Tracks ρ (s.reject node fault) (s'.reject (ρ.mark node) fault) :=
  ⟨rfl, h.report node.span fault⟩

theorem pronounce (node : Mark) (v : Inference.Verdict) :
    Tracks ρ (s.pronounce node v) (s'.pronounce (ρ.mark node) v) := by
  refine ⟨rfl, ?_⟩
  unfold State.pronounce voice
  split
  · exact h
  · exact h.report node.span _

theorem typeOf? (n : NodeId) : s'.typeOf? (ρ.node n) = s.typeOf? n := by
  rw [State.typeOf?, h.typed, State.typeOf?]
  induction s.typed with
  | nil => rfl
  | cons w rest ih =>
    rw [List.map_cons, List.lookup_cons, List.lookup_cons, ih]
    by_cases hn : n = w.1
    · simp [hn]
    · have hold : (n == w.1) = false := beq_false_of_ne hn
      have hnew : (ρ.node n == ρ.node w.1) = false :=
        beq_false_of_ne fun heq => hn (ρ.node.injective heq)
      simp only [hold, hnew]

theorem pend (n : NodeId) (next : WhenTyped) :
    Tracks ρ (s.pend n next) (s'.pend (ρ.node n) (ρ.whenTyped next)) := by
  simp only [State.pend, h.typeOf?]
  cases s.typeOf? n with
  | some symbol => exact ⟨rfl, h⟩
  | none =>
    refine ⟨rfl, { h with waiting := ?_ }⟩
    simp only [h.waiting, List.map_append, List.map_cons, List.map_nil]

theorem pendType (symbol : SymbolId) (origin : Span) (next : WhenBound) :
    Tracks ρ (s.pendType symbol origin next) (s'.pendType symbol origin (ρ.whenBound next)) := by
  simp only [State.pendType, h.graph.bound?]
  cases s.graph.bound? symbol with
  | some t => exact ⟨rfl, h⟩
  | none =>
    refine ⟨rfl, { h with blocked := ?_ }⟩
    simp only [Option.map_none, h.blocked, List.map_append, List.map_cons, List.map_nil]

theorem record {n : NodeId} (hs : s.record n symbol = .ok x) :
    ∃ x', s'.record (ρ.node n) symbol = .ok x' ∧ Tracks ρ x x' := by
  unfold State.record at hs ⊢
  rw [h.typeOf?]
  split at hs
  · cases hs
  next hnot =>
    cases hs
    simp only [hnot]
    refine ⟨_, rfl, ?_, { h with typed := ?_, waiting := ?_ }⟩
    · simp only [h.waiting, List.filter_map, List.map_map, Function.comp_def,
        ρ.node.apply_eq_iff_eq]
      rfl
    · simp only [h.typed, List.map_cons]
    · simp only [h.waiting, List.filter_map, Function.comp_def, ρ.node.apply_eq_iff_eq]

theorem wake (symbol : SymbolId) : Tracks ρ (s.wake symbol) (s'.wake symbol) := by
  simp only [State.wake, h.graph.bound?]
  cases s.graph.bound? symbol with
  | none => exact ⟨rfl, h⟩
  | some t =>
    refine ⟨?_, { h with blocked := ?_ }⟩
    · simp only [Option.map_some, h.blocked, List.filter_map, List.map_map, Function.comp_def]
      rfl
    · simp only [Option.map_some, h.blocked, List.filter_map, Function.comp_def]

theorem settle : Tracks ρ s.settle s'.settle := by
  simp only [State.settle, h.groups]
  split
  · exact ⟨rfl, h⟩
  · refine ⟨?_, { h with groups := rfl }⟩
    simp only [List.map_append, List.map_map, List.map_cons, List.map_nil]
    rfl

theorem unify (hs : s.unify t v = .ok (unified, s₁)) :
    ∃ s₁', s'.unify t v = .ok (unified, s₁') ∧ s₁.Renamed ρ s₁' := by
  unfold State.unify at hs ⊢
  split at hs
  next b g gs hu =>
    cases hs
    obtain ⟨g', hu', hg⟩ := h.graph.unify hu
    rw [h.groups, hu']
    exact ⟨_, rfl, { h with graph := hg, groups := rfl }⟩
  next => cases hs

/-! Expressions -/

end

theorem gather_exprs (call slot : Nat) (es : List Expr) :
    gather (ρ.call call) slot (es.map ρ.expr) = (gather call slot es).map ρ.task := by
  induction es generalizing slot with
  | nil => rfl
  | cons e rest ih =>
    rw [List.map_cons, gather, gather, List.map_cons, List.map_cons, ih, ρ.id_expr, ρ.span_expr]
    rfl

theorem start_exprs (node : Mark) (es : List Expr) :
    Gathering.start (ρ.mark node) (es.map ρ.expr) = ρ.gathering (.start node es) := by
  simp only [Gathering.start, Renaming.gathering, List.map_map, List.length_map,
    List.map_replicate, Option.map_none]
  congr 1
  exact List.map_congr_left fun e _ => ρ.argumentName?_expr e

section

variable (h : s.Renamed ρ s')
include h

theorem pushCall (call : Gathering) : Renamed ρ { s with calls := s.calls.push call }
      { s' with calls := s'.calls.push (ρ.gathering call) } :=
  { h with
    calls := by
      intro i
      have hnext : ρ.call s.calls.size = s'.calls.size := h.nextCall 0
      simp only [Array.getElem?_push]
      by_cases hi : i = s.calls.size
      · simp [hi, hnext]
      · have hne : ρ.call i ≠ s'.calls.size := by
          rw [← hnext]
          exact fun heq => hi (ρ.call.injective heq)
        simp only [hi, hne, if_false]
        exact h.calls i
    nextCall := by
      intro k
      have hnext := h.nextCall (k + 1)
      simp only [Array.size_push]
      rw [Nat.add_right_comm, Nat.add_right_comm s'.calls.size, Nat.add_assoc, Nat.add_assoc]
      exact hnext }

theorem infer (e : Expr) : Tracks ρ (s.infer e) (s'.infer (ρ.expr e)) := by
  cases e with
  | literal node value => exact ⟨rfl, h⟩
  | ident node name =>
    simp only [Renumbering.expr, Tree.Node.map, infer_ident, h.scope]
    exact h.pronounce node _
  | selection node target member =>
    refine ⟨?_, h⟩
    have hid := ρ.id_expr target
    have hspan := ρ.span_expr target
    simp only [Renumbering.expr] at hid hspan
    simp only [State.infer, Renumbering.expr, Tree.Node.map, Renaming.task, List.map_cons,
      List.map_nil, Renumbering.whenTyped, Renumbering.whenBound, hid, hspan]
  | call node target arguments =>
    have hnext : ρ.call s.calls.size = s'.calls.size := h.nextCall 0
    have hnodes : Tree.mapNodes ρ.mark arguments = arguments.map ρ.expr := Tree.mapNodes_eq ..
    simp only [State.infer, Renumbering.expr, Tree.Node.map, hnodes, start_exprs]
    refine ⟨?_, h.pushCall _⟩
    rw [← hnext, ← gather_exprs]
    rfl
  | namedArgument node name value =>
    refine ⟨?_, h⟩
    have hid := ρ.id_expr value
    simp only [Renumbering.expr] at hid
    simp only [State.infer, Renumbering.expr, Tree.Node.map, Renaming.task, List.map_cons,
      List.map_nil, Renumbering.whenTyped, hid]
    rfl
  | sequence | definition | typeLiteral | arrayType | referenceType | extension =>
    exact h.reject _ _

/-! Types that have come in -/

theorem select (node : Mark) (member : String) (t : TypeId) :
    Tracks ρ (s.select node member t) (s'.select (ρ.mark node) member (ρ.type t)) := by
  have hfind : (s'.graph.def? (ρ.type t)).bind (fun d => d.findMember? member) =
      (s.graph.def? t).bind fun d => d.findMember? member := by
    rw [h.graph.types]
    cases s.graph.def? t <;> rfl
  simp only [select_eq_pronounce, Inference.Verdict.ofMember, h.graph.isErrorType, hfind]
  exact h.pronounce node _

theorem resolve (call : Gathering) (types : List TypeId) :
    Tracks ρ (s.resolve call types) (s'.resolve (ρ.gathering call) (types.map ρ.type)) := by
  have hoperands : List.Forall₂ (fun t u => u = ρ.type t) types (types.map ρ.type) :=
    List.forall₂_map_right_iff.mpr (List.forall₂_same.mpr fun _ _ => rfl)
  have hverdict := Inference.Verdict.ofCall_rel (S := Eq) (g := s.graph) (h := s'.graph) rfl ?_ ?_
    hoperands call.names
  · rw [resolve_eq_pronounce, resolve_eq_pronounce]
    exact Inference.Verdict.ext hverdict.symbol hverdict.fault.symm ▸ h.pronounce call.call _
  · rintro t _ rfl
    exact h.graph.isErrorType t
  · rintro t _ rfl
    rw [h.graph.types]
    cases s.graph.def? t with
    | none => exact .nil
    | some d =>
      have hparameter : ∀ q, Overload.Agree (fun t u => u = ρ.type t) s.graph s'.graph q (ρ.parameter q) :=
        fun q => ⟨rfl, Option.isSome_map, by
          rintro t _ rfl
          rw [h.graph.symbolOf]
          exact h.graph.sameType ..⟩
      exact List.forall₂_map_right_iff.mpr (List.forall₂_same.mpr fun signature _ =>
        ⟨rfl, List.forall₂_map_right_iff.mpr (List.forall₂_same.mpr fun q _ => hparameter q)⟩)

theorem setCall (i : Nat) (call : Gathering) :
    Renamed ρ { s with calls := s.calls.setIfInBounds i call }
      { s' with calls := s'.calls.setIfInBounds (ρ.call i) (ρ.gathering call) } :=
  { h with
    calls := by
      intro j
      have hget := h.calls j
      simp only [Array.getElem?_setIfInBounds]
      by_cases hij : i = j
      · subst hij
        have hlt : ρ.call i < s'.calls.size ↔ i < s.calls.size := by
          have hnone : s'.calls[ρ.call i]? = none ↔ s.calls[i]? = none := by
            rw [hget, Option.map_eq_none_iff]
          rw [Array.getElem?_eq_none_iff, Array.getElem?_eq_none_iff] at hnone
          omega
        by_cases hi : i < s.calls.size
        · simp [hi, hlt.mpr hi]
        · simp [hi, mt hlt.mp hi]
      · have hne : ρ.call i ≠ ρ.call j := fun heq => hij (ρ.call.injective heq)
        simp only [hij, hne, if_false, hget]
    nextCall := by
      intro k
      rw [Array.size_setIfInBounds, Array.size_setIfInBounds]
      exact h.nextCall k }

theorem filed (i : Nat) {call call' : Gathering} (hcall : call' = ρ.gathering call) : Tracks ρ
      (if call.missing = 0 then
        State.resolve { s with calls := s.calls.setIfInBounds i call } call
          (call.slots.filterMap id)
      else ([], { s with calls := s.calls.setIfInBounds i call }))
      (if call'.missing = 0 then
        State.resolve { s' with calls := s'.calls.setIfInBounds (ρ.call i) call' } call'
          (call'.slots.filterMap id)
      else ([], { s' with calls := s'.calls.setIfInBounds (ρ.call i) call' })) := by
  have hset := h.setCall i call
  have hslots : (ρ.gathering call).slots.filterMap id = (call.slots.filterMap id).map ρ.type := by
    simp only [Renaming.gathering, List.filterMap_map, List.map_filterMap]
    rfl
  subst hcall
  have hmissing : (ρ.gathering call).missing = call.missing := rfl
  rw [hslots, hmissing]
  split
  · exact hset.resolve call _
  · exact ⟨rfl, hset⟩

theorem deliver (call slot : Nat) (t : TypeId) :
    Tracks ρ (s.deliver call slot t) (s'.deliver (ρ.call call) slot (ρ.type t)) := by
  unfold State.deliver
  rw [h.calls call]
  cases hcall : s.calls[call]? with
  | none => exact ⟨rfl, h⟩
  | some x =>
    have hx : ({ ρ.gathering x with
        slots := (ρ.gathering x).slots.set slot (some (ρ.type t))
        missing := (ρ.gathering x).missing - 1 } : Gathering) =
      ρ.gathering { x with slots := x.slots.set slot (some t), missing := x.missing - 1 } := by
      simp only [Renaming.gathering, List.map_set, Option.map_some]
    rw [Option.map_some]
    exact h.filed call hx

/-! Tasks -/

theorem mismatch (expected found : SymbolId) (origin : Span) :
    (s.mismatch expected found origin).Renamed ρ (s'.mismatch expected found origin) := by
  simp only [State.mismatch, h.graph.isError, h.graph.symbolText]
  split
  · exact h
  · exact h.report origin _

end

theorem acts (l : List Act) (symbol : SymbolId) :
    (ρ.actions l).map (Task.act · symbol) = (l.map (Task.act · symbol)).map ρ.task := by
  induction l with
  | nil => rfl
  | cons a l ih => exact congrArg (_ :: ·) ih

variable (h : s.Renamed ρ s')
include h

theorem onTyped {next : WhenTyped} (hs : s.onTyped next symbol = .ok x) :
    ∃ x', s'.onTyped (ρ.whenTyped next) symbol = .ok x' ∧ Tracks ρ x x' := by
  cases next with
  | resolve | copy =>
    cases hs
    exact ⟨_, rfl, rfl, h⟩
  | initialise value origin =>
    simp only [State.onTyped, Renumbering.whenTyped] at hs ⊢
    split at hs
    · next hu =>
      cases hs
      obtain ⟨s₁', hu', h'⟩ := h.unify hu
      rw [hu']
      exact ⟨_, rfl, rfl, h'⟩
    · next hu =>
      cases hs
      obtain ⟨s₁', hu', h'⟩ := h.unify hu
      rw [hu']
      exact ⟨_, rfl, rfl, h'⟩
    · cases hs
  | observe tag l =>
    cases hs
    simp only [State.onTyped, Renumbering.whenTyped, h.graph.symbolText]
    exact ⟨_, rfl, acts l symbol, h.note _⟩

theorem onBound (next : WhenBound) (t : TypeId) :
    Tracks ρ (s.onBound next t) (s'.onBound (ρ.whenBound next) (ρ.type t)) := by
  cases next with
  | select node member => exact h.select node member t
  | deliver call slot => exact h.deliver call slot t
  | compare expected origin =>
    refine ⟨rfl, ?_⟩
    simp only [State.onBound, Renumbering.whenBound, h.graph.symbolOf, h.graph.sameType]
    split
    · exact h
    · exact h.mismatch expected _ origin
  | observe tag l =>
    simp only [State.onBound, Renumbering.whenBound, h.graph.symbolOf, h.graph.typeText]
    exact ⟨acts l _, h.note _⟩

theorem settleBound (symbol : SymbolId) : (s.settleBound symbol).Renamed ρ (s'.settleBound symbol) := by
  simp only [State.settleBound, Groups.settleBound, h.graph.bound?, h.groups]
  cases s.graph.bound? symbol with
  | none => exact { h with groups := rfl }
  | some t =>
    obtain ⟨hgraph, hgroups⟩ := h.graph.spread s.groups t (s.groups.groupOf symbol)
    exact { h with graph := hgraph, groups := hgroups }

theorem perform {a : Act} (hs : s.perform a symbol = .ok x) :
    ∃ x', s'.perform (ρ.act a) symbol = .ok x' ∧ Tracks ρ x x' := by
  cases a with
  | infer | record | pend | pendType =>
    cases hs
    exact ⟨_, rfl, rfl, h⟩
  | unify other =>
    simp only [State.perform, Renumbering.act] at hs ⊢
    split at hs
    · next hu =>
      cases hs
      obtain ⟨s₁', hu', h'⟩ := h.unify hu
      rw [hu']
      exact ⟨_, rfl, rfl, h'⟩
    · cases hs
  | bound other =>
    cases hs
    exact ⟨_, rfl, rfl, h.settleBound other⟩

theorem step {task : Task} (hs : s.step task = .ok x) :
    ∃ x', s'.step (ρ.task task) = .ok x' ∧ Tracks ρ x x' := by
  cases task with
  | record => exact h.record hs
  | typed => exact h.onTyped hs
  | act => exact h.perform hs
  | infer e =>
    cases hs
    exact ⟨_, rfl, h.infer e⟩
  | pend node next =>
    cases hs
    exact ⟨_, rfl, h.pend node next⟩
  | pendType symbol origin next =>
    cases hs
    exact ⟨_, rfl, h.pendType symbol origin next⟩
  | bound next t =>
    cases hs
    exact ⟨_, rfl, h.onBound next t⟩
  | wake symbol =>
    cases hs
    exact ⟨_, rfl, h.wake symbol⟩
  | settle =>
    cases hs
    exact ⟨_, rfl, h.settle⟩
  | mismatch expected found origin =>
    cases hs
    exact ⟨_, rfl, rfl, h.mismatch expected found origin⟩
  | note line =>
    cases hs
    exact ⟨_, rfl, rfl, h.note (some line)⟩

theorem run {ts : List Task} (hr : s.run ts = (s₁, .ok ())) :
    ∃ s₁', s'.run (ts.map ρ.task) = (s₁', .ok ()) ∧ s₁.Renamed ρ s₁' := by
  fun_induction State.run s ts generalizing s' with
  | case1 s =>
    cases hr
    exact ⟨s', by rw [List.map_nil, State.run], h⟩
  | case2 s task rest new s₂ hs ih =>
    obtain ⟨⟨new', s₂'⟩, hs', htasks, h'⟩ := h.step hs
    obtain ⟨s₁', hr', h₁⟩ := ih h' hr
    refine ⟨s₁', ?_, h₁⟩
    have hnew : new' = new.map ρ.task := htasks
    rw [List.map_cons, run_cons_ok hs', hnew, ← List.map_append]
    exact hr'
  | case3 s task rest e hs => cases hr

end Renamed
end Inference.State

/-! Operations of inference -/

namespace Inference

variable {ρ : Renaming} {s s' s₁ : State}

theorem renamed_unify (h : s.Renamed ρ s') (hs : unify s t v = (s₁, .ok unified)) :
    ∃ s₁', unify s' t v = (s₁', .ok unified) ∧ s₁.Renamed ρ s₁' := by
  unfold unify at hs ⊢
  cases hu : s.unify t v with
  | error e =>
    rw [hu] at hs
    cases hs
  | ok x =>
    obtain ⟨b, s₂⟩ := x
    obtain ⟨s₂', hu', h'⟩ := h.unify hu
    rw [hu] at hs
    rw [hu']
    simp only at hs ⊢
    cases hr : s₂.run [.settle] with
    | mk s₃ outcome =>
      rw [hr] at hs
      cases outcome with
      | error e => cases hs
      | ok =>
        cases hs
        obtain ⟨s₃', hr', h''⟩ := h'.run hr
        have hr'' : s₂'.run [.settle] = (s₃', .ok ()) := hr'
        exact ⟨s₃', by rw [hr'']; rfl, h''⟩

theorem renamed_finish (h : s.Renamed ρ s') : (finish s).Renamed ρ (finish s') := by
  have hspans : (s'.blocked.map fun w => w.2.1) = s.blocked.map fun w => w.2.1 := by
    rw [h.blocked, List.map_map]
    rfl
  refine { h with blocked := rfl, diagnostics := ?_ }
  simp only [finish, hspans, h.diagnostics]

end Inference
end Binder
