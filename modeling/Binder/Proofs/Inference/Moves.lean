import Binder.Inference.Run
import Mathlib.Tactic.Common

/-! The moves of inference. A step gives a node its symbol, lets something wait or go on, unifies two
symbols, or leaves all of that alone; what holds along runs is shown move by move. -/
namespace Binder.Inference.State

open Binder.Tree (Expr Mark NodeId)

variable {s s' : State} {task : Task} {new : List Task} {symbol : SymbolId}

/-- What a step comes to. The inference of a node and the answer to a type stand as they are. -/
inductive Move (s : State) : Task → List Task → State → Prop
  | infer (e : Expr) : Move s (.infer e) (s.infer e).1 (s.infer e).2
  | record {node : NodeId} {symbol : SymbolId} (hnone : s.typeOf? node = none) :
      Move s (.record node symbol)
        ((s.waiting.filter fun w => w.1 = node).map fun w => .typed w.2 symbol)
        { s with
          typed := (node, symbol) :: s.typed
          waiting := s.waiting.filter fun w => !decide (w.1 = node) }
  | told {node : NodeId} {next : WhenTyped} {symbol : SymbolId}
      (hsymbol : s.typeOf? node = some symbol) : Move s (.pend node next) [.typed next symbol] s
  | wait {node : NodeId} {next : WhenTyped} (hnone : s.typeOf? node = none) :
      Move s (.pend node next) [] { s with waiting := s.waiting ++ [(node, next)] }
  | shown {symbol : SymbolId} {origin : Span} {next : WhenBound} {t : TypeId}
      (ht : s.graph.bound? symbol = some t) :
      Move s (.pendType symbol origin next) [.bound next t] s
  | block {symbol : SymbolId} {origin : Span} {next : WhenBound}
      (hnone : s.graph.bound? symbol = none) :
      Move s (.pendType symbol origin next) []
        { s with blocked := s.blocked ++ [(symbol, origin, next)] }
  | resolve (origin : Span) (next : WhenBound) (symbol : SymbolId) :
      Move s (.typed (.resolve origin next) symbol) [.pendType symbol origin next] s
  | copy (node : NodeId) (symbol : SymbolId) :
      Move s (.typed (.copy node) symbol) [.record node symbol] s
  | initialise {value symbol : SymbolId} {origin : Span} {unified : Bool} {graph : TypeGraph}
      {groups : Groups}
      (hu : s.unify value symbol = .ok (unified, { s with graph := graph, groups := groups })) :
      Move s (.typed (.initialise value origin) symbol)
        (.settle :: if unified then [] else [.mismatch value symbol origin])
        { s with graph := graph, groups := groups }
  | observe (tag : String) (acts : List Act) (symbol : SymbolId) :
      Move s (.typed (.observe tag acts) symbol) (acts.map (.act · symbol))
        (s.note ((s.graph.symbolText symbol).map (tag ++ ": " ++ ·)))
  | bound (next : WhenBound) (t : TypeId) :
      Move s (.bound next t) (s.onBound next t).1 (s.onBound next t).2
  | wake {symbol : SymbolId} {t : TypeId} (ht : s.graph.bound? symbol = some t) :
      Move s (.wake symbol)
        ((s.blocked.filter fun w => w.1 = symbol).map fun w => .bound w.2.2 t)
        { s with blocked := s.blocked.filter fun w => !decide (w.1 = symbol) }
  | sleep {symbol : SymbolId} (hnone : s.graph.bound? symbol = none) : Move s (.wake symbol) [] s
  | settle (hsettled : s.groups.settled ≠ []) :
      Move s .settle (s.groups.settled.map .wake ++ [.settle])
        { s with groups := { s.groups with settled := [] } }
  | rest (hsettled : s.groups.settled = []) : Move s .settle [] s
  | mismatch (expected found : SymbolId) (origin : Span) :
      Move s (.mismatch expected found origin) [] (s.mismatch expected found origin)
  | note (line : String) : Move s (.note line) [] (s.note (some line))
  | actInfer (e : Expr) (symbol : SymbolId) : Move s (.act (.infer e) symbol) [.infer e] s
  | actRecord (node : NodeId) (symbol : SymbolId) :
      Move s (.act (.record node) symbol) [.record node symbol] s
  | actPend (node : NodeId) (next : WhenTyped) (symbol : SymbolId) :
      Move s (.act (.pend node next) symbol) [.pend node next] s
  | actPendType (other : SymbolId) (origin : Span) (next : WhenBound) (symbol : SymbolId) :
      Move s (.act (.pendType other origin next) symbol) [.pendType other origin next] s
  | actUnify {other symbol : SymbolId} {unified : Bool} {graph : TypeGraph} {groups : Groups}
      (hu : s.unify other symbol = .ok (unified, { s with graph := graph, groups := groups })) :
      Move s (.act (.unify other) symbol)
        [.settle, .note ("unified " ++ Text.boolean unified)]
        { s with graph := graph, groups := groups }
  | actBound (other symbol : SymbolId) :
      Move s (.act (.bound other) symbol) [.wake other, .settle] (s.settleBound other)

theorem unify_eq {t v : SymbolId} {unified : Bool} (h : s.unify t v = .ok (unified, s')) :
    ∃ graph groups, s.groups.unify s.graph t v = .ok (unified, graph, groups) ∧
      s' = { s with graph := graph, groups := groups } := by
  unfold unify at h
  split at h
  next graph groups hu =>
    cases h
    exact ⟨graph, groups, hu, rfl⟩
  next => cases h

theorem eq_of_ok {x : List Task × State}
    (h : (.ok x : Except Misuse (List Task × State)) = .ok (new, s')) : new = x.1 ∧ s' = x.2 := by
  cases x
  cases h
  exact ⟨rfl, rfl⟩

theorem move_onTyped {next : WhenTyped} (hs : s.onTyped next symbol = .ok (new, s')) :
    s.Move (.typed next symbol) new s' := by
  cases next with
  | resolve origin next =>
    cases hs
    exact .resolve ..
  | copy node =>
    cases hs
    exact .copy ..
  | observe tag acts =>
    cases hs
    exact .observe ..
  | initialise value origin =>
    simp only [onTyped] at hs
    split at hs
    next hu =>
      cases hs
      obtain ⟨graph, groups, -, rfl⟩ := unify_eq hu
      exact .initialise hu
    next hu =>
      cases hs
      obtain ⟨graph, groups, -, rfl⟩ := unify_eq hu
      exact .initialise hu
    next => cases hs

theorem move_perform {a : Act} (hs : s.perform a symbol = .ok (new, s')) :
    s.Move (.act a symbol) new s' := by
  cases a with
  | unify other =>
    simp only [perform] at hs
    split at hs
    next hu =>
      cases hs
      obtain ⟨graph, groups, -, rfl⟩ := unify_eq hu
      exact .actUnify hu
    next => cases hs
  | infer | record | pend | pendType | bound =>
    cases hs
    constructor

/-- Every step that succeeds is a move. -/
theorem move_step (hs : s.step task = .ok (new, s')) : s.Move task new s' := by
  cases task with
  | typed => exact move_onTyped hs
  | act => exact move_perform hs
  | infer | bound | mismatch | note =>
    obtain ⟨rfl, rfl⟩ := eq_of_ok hs
    constructor
  | record node symbol =>
    simp only [step, record] at hs
    split at hs
    · cases hs
    next huntyped =>
      cases hs
      exact .record (by simpa using huntyped)
  | pend node next =>
    simp only [step, pend] at hs
    split at hs
    next symbol hsymbol =>
      cases hs
      exact .told hsymbol
    next hnone =>
      cases hs
      exact .wait hnone
  | pendType symbol origin next =>
    simp only [step, pendType] at hs
    split at hs
    next t ht =>
      cases hs
      exact .shown ht
    next hnone =>
      cases hs
      exact .block hnone
  | wake symbol =>
    simp only [step, wake] at hs
    split at hs
    next t ht =>
      cases hs
      exact .wake ht
    next hnone =>
      cases hs
      exact .sleep hnone
  | settle =>
    simp only [step, settle] at hs
    split at hs
    next hempty =>
      cases hs
      exact .rest (List.isEmpty_iff.mp hempty)
    next hempty =>
      cases hs
      exact .settle fun hnil => hempty (List.isEmpty_iff.mpr hnil)

/-- Where nobody acts, a step fails only if a node has a symbol already, or by a unification. -/
theorem exists_step (hrecord : ∀ {node symbol}, task = .record node symbol → s.typeOf? node = none)
    (hunify : ∀ {value origin symbol}, task = .typed (.initialise value origin) symbol →
      ∃ unified s', s.unify value symbol = .ok (unified, s'))
    (hact : ∀ {a symbol}, task ≠ .act a symbol) : ∃ new s', s.step task = .ok (new, s') := by
  cases task with
  | record node symbol =>
    simp only [step, record, hrecord rfl]
    exact ⟨_, _, rfl⟩
  | typed next symbol =>
    cases next with
    | initialise value origin =>
      obtain ⟨unified, s', hu⟩ := hunify rfl
      simp only [step, onTyped, hu]
      cases unified <;> exact ⟨_, _, rfl⟩
    | resolve | copy | observe => exact ⟨_, _, rfl⟩
  | act => exact absurd rfl hact
  | _ => exact ⟨_, _, rfl⟩

end Binder.Inference.State
