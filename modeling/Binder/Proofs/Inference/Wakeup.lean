import Binder.Proofs.Inference.Resume
import Binder.Proofs.Inference.Awake
import Mathlib.Data.List.Perm.Basic

/-! Keeping the books of continuations. Every continuation that was ever registered has gone on once,
with the answer that it waited for, or still waits for what is not there yet. Only an operation that
ends in a misuse loses some: those that were due when it ended. -/
namespace Binder.Inference

open Binder.Tree (Expr Mark NodeId)

variable {ts : List Task}

/-- A continuation that was registered: what it waits for, and what it does then. -/
inductive Registration where
  | typed (node : NodeId) (next : WhenTyped)
  | bound (symbol : SymbolId) (next : WhenBound)

/-- A continuation that was let go, with the answer that it got. -/
inductive Wakeup where
  | typed (node : NodeId) (next : WhenTyped) (symbol : SymbolId)
  | bound (symbol : SymbolId) (next : WhenBound) (type : TypeId)

namespace Wakeup

def registration : Wakeup → Registration
  | .typed node next _ => .typed node next
  | .bound symbol next _ => .bound symbol next

/-- What it is to run a continuation. -/
def task : Wakeup → Task
  | .typed _ next symbol => .typed next symbol
  | .bound _ next type => .bound next type

/-- The answer is the symbol that the node has, or the type that the symbol is bound to. -/
def Answered (s : State) : Wakeup → Prop
  | .typed node _ symbol => s.typeOf? node = some symbol
  | .bound symbol _ type => s.graph.bound? symbol = some type

end Wakeup

namespace Task

/-- The continuation that a task registers. -/
def registration? : Task → Option Registration
  | .pend node next => some (.typed node next)
  | .pendType symbol _ next => some (.bound symbol next)
  | _ => none

def isContinuation : Task → Bool
  | .typed .. | .bound .. => true
  | _ => false

end Task

def registrations (ts : List Task) : List Registration := ts.filterMap Task.registration?

def continuations (ts : List Task) : List Task := ts.filter Task.isContinuation

@[simp] theorem registrations_append (ts us : List Task) :
    registrations (ts ++ us) = registrations ts ++ registrations us := List.filterMap_append ..

@[simp] theorem continuations_append (ts us : List Task) :
    continuations (ts ++ us) = continuations ts ++ continuations us := List.filter_append ..

theorem registrations_cons (t : Task) (ts : List Task) :
    registrations (t :: ts) = registrations [t] ++ registrations ts := registrations_append [t] ts

theorem continuations_cons (t : Task) (ts : List Task) :
    continuations (t :: ts) = continuations [t] ++ continuations ts := continuations_append [t] ts

theorem continuations_act (acts : List Act) (symbol : SymbolId) :
    continuations (acts.map (.act · symbol)) = [] := by
  simp [continuations, Task.isContinuation]

namespace State

variable {s s' : State} {task : Task} {ts rest new : List Task} {x y : SymbolId} {e : Misuse}

def queued (s : State) : List Registration :=
  s.waiting.map (fun w => .typed w.1 w.2) ++ s.blocked.map (fun w => .bound w.1 w.2.2)

theorem queued_congr (hwaiting : s'.waiting = s.waiting) (hblocked : s'.blocked = s.blocked) :
    s'.queued = s.queued := by
  rw [queued, hwaiting, hblocked, queued]

/-- The tasks that a run does, one after the other, and those that it leaves undone. -/
def trace (s : State) (ts : List Task) : List Task × List Task :=
  match ts with
  | [] => ([], [])
  | t :: rest =>
      match _h : s.step t with
      | .ok (new, s') => (trace s' (new ++ rest)).map (t :: ·) id
      | .error _ => ([t], rest)
termination_by due ts + s.load
decreasing_by
  have hlt := step_lt ‹s.step t = _›
  simp only [due_append, due_cons]
  omega

theorem trace_cons_ok (hs : s.step task = .ok (new, s')) :
    s.trace (task :: rest) = (s'.trace (new ++ rest)).map (task :: ·) id := by
  rw [trace]
  split
  next hs' =>
    cases hs.symm.trans hs'
    rfl
  next hs' => cases hs.symm.trans hs'

theorem trace_cons_error (hs : s.step task = .error e) :
    s.trace (task :: rest) = ([task], rest) := by
  rw [trace]
  split
  next hs' => cases hs.symm.trans hs'
  next => rfl

theorem run_cons_ok (hs : s.step task = .ok (new, s')) :
    s.run (task :: rest) = s'.run (new ++ rest) := by
  rw [State.run]
  split
  next hs' =>
    cases hs.symm.trans hs'
    rfl
  next hs' => cases hs.symm.trans hs'

theorem run_cons_error (hs : s.step task = .error e) :
    s.run (task :: rest) = (s, .error e) := by
  rw [State.run]
  split
  next hs' => cases hs.symm.trans hs'
  next hs' =>
    cases hs.symm.trans hs'
    rfl

theorem run_append (s : State) (ts us : List Task) :
    s.run (ts ++ us) = match s.run ts with
      | (s₁, .ok ()) => s₁.run us
      | (s₁, .error e) => (s₁, .error e) := by
  fun_induction State.run s ts with
  | case1 s => rw [List.nil_append]
  | case2 s task rest new s₁ hs ih => rw [List.cons_append, run_cons_ok hs, ← List.append_assoc, ih]
  | case3 s task rest e hs => rw [List.cons_append, run_cons_error hs]

/-- A step lets some continuations go, each with its answer: what was queued before or is registered
now is queued afterwards or becomes due. -/
structure Releases (s : State) (task : Task) (new : List Task) (s' : State) (out : List Wakeup) :
    Prop where
  balance : (registrations [task] ++ s.queued).Perm (out.map Wakeup.registration ++ s'.queued)
  tasks : continuations new = out.map Wakeup.task
  answered : ∀ w ∈ out, w.Answered s'

theorem releases_nil (htask : task.registration? = none) (hnew : continuations new = [])
    (hwaiting : s'.waiting = s.waiting) (hblocked : s'.blocked = s.blocked) :
    s.Releases task new s' [] where
  balance := by simp [registrations, htask, queued_congr hwaiting hblocked]
  tasks := hnew
  answered := nofun

theorem Undisturbed.releases_nil (hs : s.Undisturbed s') (htask : task.registration? = none)
    (hnew : continuations new = []) : s.Releases task new s' [] :=
  State.releases_nil htask hnew hs.waiting hs.blocked

theorem continuations_infer (s : State) (e : Expr) : continuations (s.infer e).1 = [] := by
  rw [continuations, List.filter_eq_nil_iff]
  intro task htask
  cases opens_of_mem_infer htask <;> exact Bool.false_ne_true

theorem continuations_onBound (s : State) (next : WhenBound) (t : TypeId) :
    continuations (s.onBound next t).1 = [] := by
  rw [continuations, List.filter_eq_nil_iff]
  intro task htask
  rcases of_mem_onBound htask with ⟨_, _, rfl⟩ | ⟨_, _, _, _, -, -, rfl⟩ <;> exact Bool.false_ne_true

theorem releases_record {node : NodeId} (s : State) (x : SymbolId) :
    s.Releases (.record node x) ((s.waiting.filter fun w => w.1 = node).map fun w => .typed w.2 x)
      { s with
        typed := (node, x) :: s.typed
        waiting := s.waiting.filter fun w => !decide (w.1 = node) }
      ((s.waiting.filter fun w => w.1 = node).map fun w => .typed w.1 w.2 x) := by
  constructor
  · -- The queue splits into what waited for the node and what waits for others.
    have hsplit := (List.filter_append_perm (fun w => decide (w.1 = node)) s.waiting).symm.map
      fun w : NodeId × WhenTyped => Registration.typed w.1 w.2
    have hqueue := hsplit.append_right (s.blocked.map fun w => Registration.bound w.1 w.2.2)
    show s.queued.Perm _
    simpa [queued, Wakeup.registration, Function.comp_def] using hqueue
  · simp [continuations, Task.isContinuation, List.filter_map, Wakeup.task, Function.comp_def]
  · intro w hw
    obtain ⟨v, hv, rfl⟩ := List.mem_map.mp hw
    have hnode : v.1 = node := by simpa using (List.mem_filter.mp hv).2
    simp [Wakeup.Answered, typeOf?, hnode]

theorem releases_wake {t : TypeId} (ht : s.graph.bound? x = some t) :
    s.Releases (.wake x) ((s.blocked.filter fun w => w.1 = x).map fun w => .bound w.2.2 t)
      { s with blocked := s.blocked.filter fun w => !decide (w.1 = x) }
      ((s.blocked.filter fun w => w.1 = x).map fun w => .bound w.1 w.2.2 t) := by
  constructor
  · have hsplit := (List.filter_append_perm (fun w => decide (w.1 = x)) s.blocked).symm.map
      fun w : SymbolId × Span × WhenBound => Registration.bound w.1 w.2.2
    have hqueue := hsplit.append_left (s.waiting.map fun w => Registration.typed w.1 w.2)
    rw [List.map_append] at hqueue
    have hswap := hqueue.trans (List.perm_append_comm_assoc ..)
    show s.queued.Perm _
    simpa [queued, Wakeup.registration, Function.comp_def] using hswap
  · simp [continuations, Task.isContinuation, List.filter_map, Wakeup.task, Function.comp_def]
  · intro w hw
    obtain ⟨v, hv, rfl⟩ := List.mem_map.mp hw
    have hsymbol : v.1 = x := by simpa using (List.mem_filter.mp hv).2
    rw [← hsymbol] at ht
    exact ht

theorem releases_step (hs : s.step task = .ok (new, s')) :
    ∃ out, s.Releases task new s' out := by
  cases move_step hs with
  | infer e => exact ⟨[], (undisturbed_infer s e).releases_nil rfl (continuations_infer s e)⟩
  | record => exact ⟨_, releases_record s _⟩
  | @told node next symbol hsymbol =>
    refine ⟨[.typed node next symbol], .refl _, rfl, ?_⟩
    intro w hw
    rw [List.mem_singleton.mp hw]
    exact hsymbol
  | @wait node next =>
    refine ⟨[], ?_, rfl, nofun⟩
    show (.typed node next :: s.queued).Perm _
    simp only [queued, List.map_append, List.map_cons, List.map_nil, List.nil_append,
      List.append_assoc, List.cons_append]
    exact List.perm_middle.symm
  | @shown symbol origin next t ht =>
    refine ⟨[.bound symbol next t], .refl _, rfl, ?_⟩
    intro w hw
    rw [List.mem_singleton.mp hw]
    exact ht
  | @block symbol origin next =>
    refine ⟨[], ?_, rfl, nofun⟩
    show (.bound symbol next :: s.queued).Perm _
    simp only [queued, List.map_append, List.map_cons, List.map_nil, List.nil_append]
    rw [← List.append_assoc]
    exact (List.perm_append_singleton _ _).symm
  | bound next t =>
    exact ⟨[], (undisturbed_onBound s next t).releases_nil rfl (continuations_onBound s next t)⟩
  | wake ht => exact ⟨_, releases_wake ht⟩
  | mismatch expected found origin =>
    exact ⟨[], (undisturbed_mismatch s expected found origin).releases_nil rfl rfl⟩
  | observe => exact ⟨[], releases_nil rfl (continuations_act ..) rfl rfl⟩
  | settle => exact ⟨[], releases_nil rfl (by simp [continuations, Task.isContinuation]) rfl rfl⟩
  | @initialise _ _ _ unified => exact ⟨[], releases_nil rfl (by cases unified <;> rfl) rfl rfl⟩
  | _ => exact ⟨[], releases_nil rfl rfl rfl rfl⟩

end State

theorem Wakeup.Answered.mono {s s' : State} {w : Wakeup} (h : w.Answered s)
    (htyped : ∀ {node x}, s.typeOf? node = some x → s'.typeOf? node = some x)
    (hgraph : s.graph.Grows s'.graph) : w.Answered s' := by
  cases w with
  | typed => exact htyped h
  | bound => exact hgraph.bound h

namespace State

variable {s s' : State} {task : Task} {ts rest new : List Task} {x y : SymbolId} {w : Wakeup}

theorem answered_run (s : State) (ts : List Task) (h : w.Answered s) : w.Answered (s.run ts).1 :=
  run_invariant (P := w.Answered) (fun h hs => h.mono (typeOf?_step hs) (advances_step hs).grows) s ts h

/-- The books of a run: it lets some continuations go, each with its answer, and each of them is run
or left undone. -/
structure Balances (s : State) (ts : List Task) (out : List Wakeup) : Prop where
  registered : (registrations (s.trace ts).1 ++ s.queued).Perm
    (out.map Wakeup.registration ++ (s.run ts).1.queued)
  run : (continuations ts ++ out.map Wakeup.task).Perm
    (continuations (s.trace ts).1 ++ continuations (s.trace ts).2)
  answered : ∀ w ∈ out, w.Answered (s.run ts).1

theorem balances_run (s : State) (ts : List Task) : ∃ out, s.Balances ts out := by
  fun_induction State.run s ts with
  | case1 s =>
    refine ⟨[], ?_, ?_, List.forall_mem_nil _⟩
    · rw [trace, run]
      exact .refl _
    · rw [trace]
      exact .refl _
  | case2 s task rest new s' hs ih =>
    obtain ⟨out', h'⟩ := ih
    obtain ⟨out, h⟩ := releases_step hs
    have hrun : s.run (task :: rest) = s'.run (new ++ rest) := run_cons_ok hs
    refine ⟨out ++ out', ?_, ?_, ?_⟩
    · rw [trace_cons_ok hs, hrun]
      simp only [Prod.map_fst, List.map_append, List.append_assoc]
      rw [registrations_cons, List.append_assoc]
      calc registrations [task] ++ (registrations (s'.trace (new ++ rest)).1 ++ s.queued)
        _ |>.Perm (registrations (s'.trace (new ++ rest)).1 ++ (registrations [task] ++ s.queued)) :=
            List.perm_append_comm_assoc ..
        _ |>.Perm (registrations (s'.trace (new ++ rest)).1 ++
              (out.map Wakeup.registration ++ s'.queued)) := h.balance.append_left _
        _ |>.Perm (out.map Wakeup.registration ++
              (registrations (s'.trace (new ++ rest)).1 ++ s'.queued)) :=
            List.perm_append_comm_assoc ..
        _ |>.Perm (out.map Wakeup.registration ++
              (out'.map Wakeup.registration ++ (s'.run (new ++ rest)).1.queued)) :=
            h'.registered.append_left _
    · have hdone := h'.run
      rw [continuations_append, h.tasks] at hdone
      rw [trace_cons_ok hs]
      simp only [Prod.map_fst, Prod.map_snd, id, List.map_append]
      rw [continuations_cons, continuations_cons task (s'.trace (new ++ rest)).1,
        List.append_assoc, List.append_assoc]
      apply List.Perm.append_left
      refine .trans ?_ hdone
      rw [List.append_assoc]
      exact List.perm_append_comm_assoc ..
    · rw [hrun]
      intro w hw
      rcases List.mem_append.mp hw with hw | hw
      · exact answered_run s' (new ++ rest) (h.answered w hw)
      · exact h'.answered w hw
  | case3 s task rest e hs =>
    -- Only a continuation or a recording can fail, and neither of them registers anything.
    have hnone : registrations [task] = [] := by
      cases task with
      | pend | pendType => cases hs
      | _ => rfl
    refine ⟨[], ?_, ?_, List.forall_mem_nil _⟩
    · rw [trace_cons_error hs, run_cons_error hs, hnone]
      exact .refl _
    · rw [trace_cons_error hs, List.map_nil, List.append_nil, continuations_cons]

theorem trace_snd_of_ok (s : State) (ts : List Task) (h : s.run ts = (s', .ok ())) :
    (s.trace ts).2 = [] := by
  fun_induction State.run s ts with
  | case1 s => rw [trace]
  | case2 s task rest new s₁ hs ih =>
    rw [trace_cons_ok hs]
    exact ih h
  | case3 s task rest e hs => cases h

end State

/-- The operations of inference. -/
inductive Operation where
  | infer (e : Expr)
  | record (node : NodeId) (symbol : SymbolId)
  | pend (node : NodeId) (next : WhenTyped)
  | pendType (symbol : SymbolId) (origin : Span) (next : WhenBound)
  | pendResolved (e : Expr) (next : WhenBound)
  | unify (first second : SymbolId)
  | bound (symbol : SymbolId)

namespace Operation

variable {s s' : State}

def apply (s : State) : Operation → Outcome Unit
  | .infer e => Inference.infer s e
  | .record node symbol => Inference.record s node symbol
  | .pend node next => Inference.pend s node next
  | .pendType symbol origin next => Inference.pendType s symbol origin next
  | .pendResolved e next => Inference.pendResolved s e next
  | .unify first second =>
      ((Inference.unify s first second).1, (Inference.unify s first second).2.map fun _ => ())
  | .bound symbol => Inference.bound s symbol

/-- The tasks that an operation consists of, and the state that they start from. -/
def start (s : State) : Operation → Except Misuse (List Task × State)
  | .infer e => .ok ([.infer e], s)
  | .record node symbol => .ok ([.record node symbol], s)
  | .pend node next => .ok ([.pend node next], s)
  | .pendType symbol origin next => .ok ([.pendType symbol origin next], s)
  | .pendResolved e next => .ok ([.pend e.id (.resolve e.span next)], s)
  | .unify first second => (s.unify first second).map fun r => ([.settle], r.2)
  | .bound symbol => .ok ([.wake symbol, .settle], s.settleBound symbol)

theorem apply_eq (s : State) (op : Operation) :
    op.apply s = match op.start s with
      | .ok (ts, s') => s'.run ts
      | .error e => (s, .error e) := by
  cases op with
  | unify first second =>
    simp only [apply, Inference.unify, start]
    cases s.unify first second with
    | error e => rfl
    | ok r =>
      simp only [Except.map]
      cases hrun : (r.2.run [.settle]).2 <;> simp [hrun, Prod.ext_iff]
  | infer | record | pend | pendType | pendResolved | bound => rfl

/-- What an operation does, task by task, and what it leaves undone. -/
def trace (s : State) (op : Operation) : List Task × List Task :=
  match op.start s with
  | .ok (ts, s') => s'.trace ts
  | .error _ => ([], [])

/-- An operation starts by binding symbols at most. It runs no continuation on its own, and what it
binds will be woken. -/
structure Starts (s : State) (ts : List Task) (s' : State) : Prop where
  waiting : s'.waiting = s.waiting
  blocked : s'.blocked = s.blocked
  typed : s'.typed = s.typed
  grows : s.graph.Grows s'.graph
  continuations : continuations ts = []
  queues : s.Queues s'
  settling : s'.groups.settled ≠ s.groups.settled → Task.settle ∈ ts

theorem starts {op : Operation} (h : op.start s = .ok (ts, s')) :
    Starts s ts s' := by
  cases op with
  | infer | record | pend | pendType | pendResolved =>
    cases h
    exact ⟨rfl, rfl, rfl, .refl _, rfl, .of_graph_eq rfl rfl, fun hne => absurd rfl hne⟩
  | unify first second =>
    obtain ⟨r, hu, hr⟩ : ∃ r, s.unify first second = .ok r ∧ ([.settle], r.2) = (ts, s') := by
      simp only [start] at h
      cases hu : s.unify first second with
      | error e =>
        rw [hu] at h
        cases h
      | ok r =>
        rw [hu] at h
        exact ⟨r, rfl, Except.ok.inj h⟩
    cases hr
    have hqueues := State.queues_unify hu
    have hgrows := (State.advances_unify hu).grows
    obtain ⟨graph, groups, -, heq⟩ := State.unify_eq hu
    rw [heq] at hqueues hgrows ⊢
    exact ⟨rfl, rfl, rfl, hgrows, rfl, hqueues, fun _ => List.mem_cons_self⟩
  | bound symbol =>
    cases h
    exact ⟨rfl, rfl, rfl, (State.advances_settleBound s symbol).grows, rfl,
      State.queues_settleBound s symbol, fun _ => by simp⟩

end Operation

/-- What has happened in a session so far: which tasks were done, which ones were left undone by
operations that failed, and how each operation ended. -/
structure Log where
  done : List Task
  left : List Task
  outcomes : List (Except Misuse Unit)

namespace Log

def empty : Log := ⟨[], [], []⟩

def registered (log : Log) : List Registration := registrations log.done

def ran (log : Log) : List Task := continuations log.done

def lost (log : Log) : List Task := continuations log.left

/-- Whether every operation has succeeded. -/
def Succeeds (log : Log) : Prop := ∀ outcome ∈ log.outcomes, outcome = .ok ()

instance (log : Log) : Decidable log.Succeeds :=
  inferInstanceAs (Decidable (∀ outcome ∈ log.outcomes, outcome = .ok ()))

def add (log : Log) (s : State) (op : Operation) : Log where
  done := log.done ++ (op.trace s).1
  left := log.left ++ (op.trace s).2
  outcomes := log.outcomes ++ [(op.apply s).2]

end Log

/-- Operations one after the other. Between two of them types may be added and symbols bound, but a
symbol that something waits for has to be handed over to the next operation. -/
inductive Session : State → Log → Prop
  | start (graph : TypeGraph) (scope : Scope Declaration) :
      Session (.initial graph scope) .empty
  | operate {s : State} {log : Log} {graph : TypeGraph} (op : Operation) : Session s log →
      s.graph.Grows graph →
      (∀ w ∈ s.blocked, graph.bound? w.1 = s.graph.bound? w.1 ∨ op = .bound w.1) →
      Session (op.apply (s.setGraph graph)).1 (log.add (s.setGraph graph) op)

namespace Session

open State

variable {s s' : State} {log : Log} {graph : TypeGraph} {op : Operation}

theorem untyped_run (s : State) (ts : List Task) (h : ∀ w ∈ s.waiting, s.typeOf? w.1 = none) :
    ∀ w ∈ (s.run ts).1.waiting, (s.run ts).1.typeOf? w.1 = none := by
  refine run_invariant (P := fun s => ∀ w ∈ s.waiting, s.typeOf? w.1 = none) ?_ s ts h
  intro s task new s' h hs
  have halert : s.Alert (task :: [.settle]) := ⟨h, fun _ => by simp⟩
  exact (halert.step hs).untyped

theorem untyped (h : Session s log) : ∀ w ∈ s.waiting, s.typeOf? w.1 = none := by
  induction h with
  | start graph scope => nofun
  | @operate s log graph op _ _ _ ih =>
    rw [Operation.apply_eq]
    split
    next ts s' hstart =>
      have hstarts := Operation.starts hstart
      apply untyped_run
      rw [hstarts.waiting]
      intro w hw
      rw [typeOf?, hstarts.typed]
      exact ih w hw
    next => exact ih

theorem Succeeds.of_add (h : (log.add s op).Succeeds) :
    log.Succeeds ∧ (op.apply s).2 = .ok () := by
  constructor
  · intro outcome hmem
    exact h outcome (List.mem_append_left _ hmem)
  · exact h _ (List.mem_append_right _ List.mem_cons_self)

theorem vigilant_start (h : s.Vigilant [])
    (hbound : ∀ w ∈ s.blocked, graph.bound? w.1 = s.graph.bound? w.1 ∨ op = .bound w.1)
    (hstart : op.start (s.setGraph graph) = .ok (ts, s')) : s'.Vigilant ts := by
  have hstarts := Operation.starts hstart
  constructor
  · constructor
    · intro w hw
      rw [hstarts.waiting] at hw
      rw [typeOf?, hstarts.typed]
      exact h.alert.untyped w hw
    · intro hne
      apply hstarts.settling
      rwa [show (s.setGraph graph).groups.settled = [] from h.settled_eq_nil]
  · intro w hw
    rw [hstarts.blocked] at hw
    rcases hbound w hw with hsame | rfl
    · have hnone : graph.bound? w.1 = none := hsame.trans (h.unbound w hw)
      cases hb : s'.graph.bound? w.1 with
      | none => exact .inl rfl
      | some t => exact .inr (.inl (hstarts.queues.bound hb hnone))
    · cases hstart
      exact .inr (.inr List.mem_cons_self)

/-- As long as every operation succeeds, nobody waits for a symbol that is bound. -/
theorem vigilant (h : Session s log) (hok : log.Succeeds) : s.Vigilant [] ∧ log.left = [] := by
  induction h with
  | start graph scope => exact ⟨⟨⟨nofun, nofun⟩, nofun⟩, rfl⟩
  | @operate s log graph op _ _ hbound ih =>
    obtain ⟨hlog, hop⟩ := Succeeds.of_add hok
    obtain ⟨hvigilant, hleft⟩ := ih hlog
    rw [Operation.apply_eq] at hop ⊢
    simp only [Log.add, hleft, List.nil_append, Operation.trace]
    split at hop
    next ts s' hstart =>
      have hrun : s'.run ts = ((s'.run ts).1, .ok ()) := Prod.ext rfl hop
      constructor
      · exact (vigilant_start hvigilant hbound hstart).run hrun
      · exact trace_snd_of_ok s' ts hrun
    next => cases hop

/-- The books of a session. -/
structure Balances (s : State) (log : Log) (out : List Wakeup) : Prop where
  registered : log.registered.Perm (out.map Wakeup.registration ++ s.queued)
  run : (out.map Wakeup.task).Perm (log.ran ++ log.lost)
  answered : ∀ w ∈ out, w.Answered s

theorem balances (h : Session s log) : ∃ out, Balances s log out := by
  induction h with
  | start graph scope => exact ⟨[], .refl _, .refl _, nofun⟩
  | @operate s log graph op _ hgrows _ ih =>
    obtain ⟨out, h⟩ := ih
    simp only [Log.add, Operation.trace, Operation.apply_eq]
    split
    next ts s' hstart =>
      have hstarts := Operation.starts hstart
      obtain ⟨out', h'⟩ := balances_run s' ts
      have hqueued : s'.queued = s.queued := queued_congr hstarts.waiting hstarts.blocked
      refine ⟨out ++ out', ?_, ?_, ?_⟩
      · have hnew := h'.registered
        rw [hqueued] at hnew
        simp only [Log.registered, registrations_append, List.map_append, List.append_assoc]
        calc registrations log.done ++ registrations (s'.trace ts).1
          _ |>.Perm (out.map Wakeup.registration ++ s.queued ++ registrations (s'.trace ts).1) :=
              h.registered.append_right _
          _ |>.Perm (out.map Wakeup.registration ++ (registrations (s'.trace ts).1 ++ s.queued)) := by
              rw [List.append_assoc]
              exact List.perm_append_comm.append_left _
          _ |>.Perm (out.map Wakeup.registration ++
                (out'.map Wakeup.registration ++ (s'.run ts).1.queued)) := hnew.append_left _
      · have hnew := h'.run
        rw [hstarts.continuations, List.nil_append] at hnew
        simp only [Log.ran, Log.lost, continuations_append, List.map_append]
        refine (h.run.append hnew).trans ?_
        simp only [Log.ran, Log.lost, List.append_assoc]
        exact (List.perm_append_comm_assoc ..).append_left _
      · intro w hw
        rcases List.mem_append.mp hw with hw | hw
        · apply answered_run
          apply (h.answered w hw).mono
          · intro node x hx
            rw [typeOf?, hstarts.typed]
            exact hx
          · exact hgrows.trans hstarts.grows
        · exact h'.answered w hw
    next =>
      refine ⟨out, ?_, ?_, ?_⟩
      · have hqueued : (s.setGraph graph).queued = s.queued := rfl
        simpa [Log.registered, hqueued] using h.registered
      · simpa [Log.ran, Log.lost] using h.run
      · intro w hw
        exact (h.answered w hw).mono id hgrows

theorem exists_map_eq {α β : Type} {f : α → β} {l : List α} {r : List β} (h : r.Perm (l.map f)) :
    ∃ l' : List α, l'.Perm l ∧ l'.map f = r := by
  have himage : List.Forall₂ (fun b a => b = f a) (l.map f) l := by
    rw [List.forall₂_map_left_iff, List.forall₂_same]
    exact fun _ _ => rfl
  obtain ⟨l', hl', hperm⟩ := List.perm_comp_forall₂ h himage
  refine ⟨l', hperm, ?_⟩
  rw [← List.forall₂_eq_eq_eq, List.forall₂_map_left_iff]
  exact hl'.flip.imp fun _ _ heq => heq.symm

/-- Operations one after the other with nothing in between. -/
def play : List Operation → State → Log → State × Log
  | [], s, log => (s, log)
  | op :: rest, s, log => play rest (op.apply s).1 (log.add s op)

theorem played (ops : List Operation) (h : Session s log) :
    Session (play ops s log).1 (play ops s log).2 := by
  induction ops generalizing s log with
  | nil => exact h
  | cons op rest ih => exact ih (.operate op h (.refl _) fun _ _ => .inl rfl)

/-- No wake-up is lost and none is repeated. Nobody waits for a node that has a symbol, nor, as long
as every operation succeeds, for a symbol that is bound. The continuations that were registered are
those that have run, each of them once and with the answer that it waited for, those that still
wait, and those that were due when an operation failed. -/
theorem wakeups_balance (h : Session s log) :
    (∀ w ∈ s.waiting, s.typeOf? w.1 = none) ∧
    (log.Succeeds → (∀ w ∈ s.blocked, s.graph.bound? w.1 = none) ∧ log.lost = []) ∧
    ∃ runs drops : List Wakeup,
      runs.map Wakeup.task = log.ran ∧ drops.map Wakeup.task = log.lost ∧
      log.registered.Perm ((runs ++ drops).map Wakeup.registration ++ s.queued) ∧
      ∀ w ∈ runs ++ drops, w.Answered s := by
  refine ⟨h.untyped, ?_, ?_⟩
  · intro hok
    obtain ⟨hvigilant, hleft⟩ := h.vigilant hok
    refine ⟨hvigilant.unbound, ?_⟩
    rw [Log.lost, hleft]
    rfl
  · obtain ⟨out, hout⟩ := h.balances
    obtain ⟨out', hperm, htasks⟩ := exists_map_eq hout.run.symm
    obtain ⟨runs, drops, rfl, hruns, hdrops⟩ := List.map_eq_append_iff.mp htasks
    refine ⟨runs, drops, hruns, hdrops, ?_, ?_⟩
    · exact hout.registered.trans ((hperm.symm.map _).append_right _)
    · intro w hw
      exact hout.answered w (hperm.mem_iff.mp hw)

/-- A continuation that waits for a node and then for its symbol goes on when the symbol is bound from
outside, in a session in which every operation succeeds. -/
theorem wakeups_balance_outside : ∃ s log, Session s log ∧ log.Succeeds ∧
    log.ran.length = 2 ∧ log.lost = [] ∧ s.queued.length = 1 ∧
    ∃ runs drops : List Wakeup,
      runs.map Wakeup.task = log.ran ∧ drops.map Wakeup.task = log.lost ∧
      log.registered.Perm ((runs ++ drops).map Wakeup.registration ++ s.queued) ∧
      ∀ w ∈ runs ++ drops, w.Answered s := by
  let before := play [.pend ⟨1⟩ (.resolve default (.deliver 0 0)), .pend ⟨2⟩ (.copy ⟨3⟩),
    .record ⟨1⟩ ⟨29⟩] (.initial (Prelude.graph.newSymbol "").2 .empty) .empty
  have hbefore : Session before.1 before.2 := played _ (.start ..)
  have hblocked : ∀ w ∈ before.1.blocked, w.1 = ⟨29⟩ := by decide +kernel
  have h := Session.operate (.bound ⟨29⟩) hbefore (TypeGraph.grows_bindAll ⟨4⟩ [⟨29⟩])
    fun w hw => .inr (congrArg Operation.bound (hblocked w hw).symm)
  obtain ⟨-, hok, hruns⟩ := wakeups_balance h
  have hsucceeds : (before.2.add (before.1.setGraph (before.1.graph.bindAll ⟨4⟩ [⟨29⟩]).1)
      (.bound ⟨29⟩)).Succeeds := by decide +kernel
  exact ⟨_, _, h, hsucceeds, by decide +kernel, (hok hsucceeds).2, by decide +kernel, hruns⟩

/-- A run is lost when the one before it fails: here the first one wants to give a node a second
symbol. The operations after the one that fails do not make up for it. -/
theorem exists_wakeup_lost : ∃ s log, Session s log ∧ log.outcomes.getLast? = some (.ok ()) ∧
    s.queued.length + log.ran.length < log.registered.length := by
  have h := played [.pend ⟨1⟩ (.copy ⟨2⟩), .pend ⟨1⟩ (.copy ⟨3⟩), .record ⟨2⟩ ⟨4⟩, .record ⟨1⟩ ⟨4⟩,
    .record ⟨5⟩ ⟨4⟩] (.start Prelude.graph .empty)
  exact ⟨_, _, h, by decide +kernel, by decide +kernel⟩

end Session
end Binder.Inference
