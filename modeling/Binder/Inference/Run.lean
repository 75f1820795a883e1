import Binder.Inference.Engine

/-! Working off tasks until none is left. Each step makes the sum of the weights of the tasks due and
of the load of the state smaller, so that every run comes to an end. -/
namespace Binder.Inference

open Binder.Tree (Expr Mark NodeId)

/-- The weight of tasks due together. -/
def due (ts : List Task) : Nat := total Task.weight ts

@[simp] theorem due_nil : due [] = 0 := rfl

@[simp] theorem due_cons (t : Task) (ts : List Task) : due (t :: ts) = t.weight + due ts := rfl

@[simp] theorem due_append (ts us : List Task) : due (ts ++ us) = due ts + due us :=
  total_append ..

theorem due_act (acts : List Act) (symbol : SymbolId) :
    due (acts.map (.act · symbol)) = actsWeight acts := by
  induction acts with
  | nil => rfl
  | cons a rest ih => simp only [List.map_cons, due_cons, Task.weight, actsWeight, ih]

namespace State

@[simp] theorem due_gather (call slot : Nat) (es : List Expr) :
    due (gather call slot es) = inferWeights es := by
  induction es generalizing slot with
  | nil => rfl
  | cons e rest ih =>
    simp only [gather, due_cons, ih, Task.weight, WhenTyped.weight, WhenBound.weight, inferWeights]
    omega

@[simp] theorem load_report (s : State) (span : Span) (fault : Fault) :
    (s.report span fault).load = s.load := rfl

@[simp] theorem load_note (s : State) (line : Option String) : (s.note line).load = s.load := rfl

@[simp] theorem load_mismatch (s : State) (expected found : SymbolId) (origin : Span) :
    (s.mismatch expected found origin).load = s.load := by
  unfold mismatch
  split <;> rfl

theorem reject_lt (s : State) (node : Mark) (fault : Fault) :
    due (s.reject node fault).1 + (s.reject node fault).2.load < 2 + s.load := by
  simp only [reject, due_cons, due_nil, Task.weight, load_report]
  omega

theorem infer_lt (s : State) (e : Expr) :
    due (s.infer e).1 + (s.infer e).2.load < inferWeight e + s.load := by
  cases e with
  | literal => simp [infer, Task.weight, inferWeight]
  | ident node name =>
    simp only [infer, inferWeight]
    split
    · simp only [due_cons, due_nil, Task.weight]
      omega
    · exact reject_lt ..
    · exact reject_lt ..
  | selection =>
    simp only [infer, due_cons, due_nil, Task.weight, WhenTyped.weight, WhenBound.weight,
      inferWeight]
    omega
  | call =>
    simp only [infer, due_gather, inferWeights, inferWeight, load]
    omega
  | namedArgument =>
    simp only [infer, due_cons, due_nil, Task.weight, WhenTyped.weight, inferWeight]
    omega
  | sequence | definition | typeLiteral | arrayType | referenceType | extension =>
    exact reject_lt ..

theorem record_lt {s s' : State} {node : NodeId} {symbol : SymbolId} {ts : List Task}
    (h : s.record node symbol = .ok (ts, s')) : due ts + s'.load < 1 + s.load := by
  unfold record at h
  split at h
  · cases h
  · cases h
    have hsplit := total_filter_add (fun w : NodeId × WhenTyped => w.2.weight)
      (fun w => decide (w.1 = node)) s.waiting
    simp only [due, total_map, Task.weight, load]
    omega

theorem pend_lt (s : State) (node : NodeId) (next : WhenTyped) :
    due (s.pend node next).1 + (s.pend node next).2.load < next.weight + 1 + s.load := by
  unfold pend
  split
  · simp only [due_cons, due_nil, Task.weight]
    omega
  · simp only [due_nil, load, total_append, total_cons, total_nil]
    omega

theorem pendType_lt (s : State) (symbol : SymbolId) (origin : Span) (next : WhenBound) :
    due (s.pendType symbol origin next).1 + (s.pendType symbol origin next).2.load <
      next.weight + 1 + s.load := by
  unfold pendType
  split
  · simp only [due_cons, due_nil, Task.weight]
    omega
  · simp only [due_nil, load, total_append, total_cons, total_nil]
    omega

theorem wake_lt (s : State) (symbol : SymbolId) :
    due (s.wake symbol).1 + (s.wake symbol).2.load < 1 + s.load := by
  unfold wake
  split
  · have hsplit := total_filter_add (fun w : SymbolId × Span × WhenBound => w.2.2.weight)
      (fun w => decide (w.1 = symbol)) s.blocked
    simp only [due, total_map, Task.weight, load]
    omega
  · simp only [due_nil]
    omega

theorem settle_lt (s : State) : due s.settle.1 + s.settle.2.load < 1 + s.load := by
  unfold settle
  split
  · simp only [due_nil]
    omega
  · next h =>
    have hpos : 0 < s.groups.settled.length := by
      rw [List.length_pos_iff]
      simpa using h
    simp only [due, total_append, total_map, total_cons, total_nil, Task.weight, total_const, load,
      List.length_nil]
    omega

theorem load_unify {s s' : State} {t v : SymbolId} {b : Bool}
    (h : s.unify t v = .ok (b, s')) : s'.load ≤ s.load := by
  unfold unify at h
  split at h
  · next hu =>
    cases h
    have hsettles := Groups.settles_unify hu
    simp only [Groups.Settles] at hsettles
    simp only [load]
    omega
  · cases h

theorem load_settleBound (s : State) (symbol : SymbolId) :
    (s.settleBound symbol).load ≤ s.load := by
  have hsettles := Groups.settles_settleBound s.graph s.groups symbol
  simp only [Groups.Settles] at hsettles
  simp only [settleBound, load]
  omega

theorem select_lt (s : State) (node : Mark) (member : String) (t : TypeId) :
    due (s.select node member t).1 + (s.select node member t).2.load < 2 + s.load := by
  unfold select
  split
  · simp only [due_cons, due_nil, Task.weight]
    omega
  · split
    · simp only [due_cons, due_nil, Task.weight]
      omega
    · exact reject_lt ..

theorem resolve_lt (s : State) (call : Gathering) (types : List TypeId) :
    due (s.resolve call types).1 + (s.resolve call types).2.load < 2 + s.load := by
  unfold resolve
  split
  · simp only [due_cons, due_nil, Task.weight]
    omega
  · simp only
    split
    · simp only [due_cons, due_nil, Task.weight]
      omega
    · split
      · exact reject_lt ..
      · split
        · simp only [due_cons, due_nil, Task.weight]
          omega
        · exact reject_lt ..

theorem deliver_lt (s : State) (call slot : Nat) (t : TypeId) :
    due (s.deliver call slot t).1 + (s.deliver call slot t).2.load < 2 + s.load := by
  unfold deliver
  split
  · simp only [due_nil]
    omega
  · simp only
    split
    · exact resolve_lt ..
    · simp only [due_nil, load]
      omega

theorem onTyped_lt {s s' : State} {next : WhenTyped} {symbol : SymbolId} {ts : List Task}
    (h : s.onTyped next symbol = .ok (ts, s')) : due ts + s'.load < next.weight + s.load := by
  unfold onTyped at h
  split at h
  · cases h
    simp only [due_cons, due_nil, Task.weight, WhenTyped.weight]
    omega
  · cases h
    simp only [due_cons, due_nil, Task.weight, WhenTyped.weight]
    omega
  · split at h
    · next hu =>
      cases h
      have hle := load_unify hu
      simp only [due_cons, due_nil, Task.weight, WhenTyped.weight]
      omega
    · next hu =>
      cases h
      have hle := load_unify hu
      simp only [due_cons, due_nil, Task.weight, WhenTyped.weight]
      omega
    · cases h
  · cases h
    simp only [due_act, WhenTyped.weight, load_note]
    omega

theorem onBound_lt (s : State) (next : WhenBound) (t : TypeId) :
    due (s.onBound next t).1 + (s.onBound next t).2.load < next.weight + s.load := by
  unfold onBound
  split
  · exact select_lt ..
  · exact deliver_lt ..
  · simp only [due_nil, WhenBound.weight]
    split
    · omega
    · simp only [load_mismatch]
      omega
  · simp only [due_act, WhenBound.weight, load_note]
    omega

theorem perform_lt {s s' : State} {a : Act} {symbol : SymbolId} {ts : List Task}
    (h : s.perform a symbol = .ok (ts, s')) : due ts + s'.load < a.weight + s.load := by
  unfold perform at h
  split at h
  · cases h
    simp only [due_cons, due_nil, Task.weight, Act.weight]
    omega
  · cases h
    simp only [due_cons, due_nil, Task.weight, Act.weight]
    omega
  · cases h
    simp only [due_cons, due_nil, Task.weight, Act.weight]
    omega
  · cases h
    simp only [due_cons, due_nil, Task.weight, Act.weight]
    omega
  · split at h
    · next hu =>
      cases h
      have hle := load_unify hu
      simp only [due_cons, due_nil, Task.weight, Act.weight]
      omega
    · cases h
  · next other =>
    cases h
    have hle := load_settleBound s other
    simp only [due_cons, due_nil, Task.weight, Act.weight]
    omega

theorem ok_lt {x : List Task × State} {n : Nat} {s' : State} {ts : List Task}
    (hx : due x.1 + x.2.load < n)
    (h : (.ok x : Except Misuse (List Task × State)) = .ok (ts, s')) :
    due ts + s'.load < n := by
  rw [Except.ok.injEq] at h
  rwa [h] at hx

/-- A step leaves less to do than there was. -/
theorem step_lt {s s' : State} {t : Task} {ts : List Task}
    (h : s.step t = .ok (ts, s')) : due ts + s'.load < t.weight + s.load := by
  cases t with
  | infer e => exact ok_lt (s.infer_lt e) h
  | record => exact record_lt h
  | pend node next => exact ok_lt (s.pend_lt node next) h
  | pendType symbol origin next => exact ok_lt (s.pendType_lt symbol origin next) h
  | typed => exact onTyped_lt h
  | bound next t => exact ok_lt (s.onBound_lt next t) h
  | wake symbol => exact ok_lt (s.wake_lt symbol) h
  | settle => exact ok_lt s.settle_lt h
  | mismatch | note =>
    cases h
    simp only [due_nil, Task.weight, load_mismatch, load_note]
    omega
  | act => exact perform_lt h

/-- Works off tasks, each with all that comes of it before the next. The first misuse ends the run:
what was done stays done, and what was still due is dropped. -/
def run (s : State) (ts : List Task) : State × Except Misuse Unit :=
  match ts with
  | [] => (s, .ok ())
  | t :: rest =>
      match _h : s.step t with
      | .ok (new, s') => run s' (new ++ rest)
      | .error e => (s, .error e)
termination_by due ts + s.load
decreasing_by
  have hlt := step_lt ‹s.step t = _›
  simp only [due_append, due_cons]
  omega

end State

/-- An operation on the state of inference that may end in a misuse. -/
abbrev Outcome (α : Type) := State × Except Misuse α

/-- Types a node and all nodes below it, as far as that is possible now. -/
def infer (s : State) (e : Expr) : Outcome Unit := s.run [.infer e]

/-- Gives a node its type symbol. -/
def record (s : State) (node : NodeId) (symbol : SymbolId) : Outcome Unit :=
  s.run [.record node symbol]

/-- Goes on once a node has a type symbol. -/
def pend (s : State) (node : NodeId) (next : WhenTyped) : Outcome Unit := s.run [.pend node next]

/-- Goes on once a symbol is bound. The span is reported if it never is. -/
def pendType (s : State) (symbol : SymbolId) (origin : Span) (next : WhenBound) : Outcome Unit :=
  s.run [.pendType symbol origin next]

/-- Goes on once a node has a type symbol and that symbol is bound. -/
def pendResolved (s : State) (e : Expr) (next : WhenBound) : Outcome Unit :=
  s.run [.pend e.id (.resolve e.span next)]

/-- Unifies two symbols and lets go whatever waited for the symbols that this binds. -/
def unify (s : State) (t v : SymbolId) : Outcome Bool :=
  match s.unify t v with
  | .error e => (s, .error e)
  | .ok (unified, s) =>
      let (s, outcome) := s.run [.settle]
      (s, outcome.map fun _ => unified)

/-- Must follow whenever a symbol was bound by other means than unification. -/
def bound (s : State) (symbol : SymbolId) : Outcome Unit :=
  (s.settleBound symbol).run [.wake symbol, .settle]

/-- Reports everything that waited for a symbol that was never bound, ordered by span. -/
def finish (s : State) : State :=
  let origins := Span.sort (s.blocked.map fun w => w.2.1)
  { s with
    blocked := []
    diagnostics := s.diagnostics ++ origins.map fun origin => ⟨origin, .unresolvedType⟩ }

end Binder.Inference
