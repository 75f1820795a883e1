import Binder.Proofs.Inference.Wakeup

/-! An expression cannot be inferred twice. Inference goes straight down to the innermost node on the
left before it registers anything, and that node has a symbol once the expression was inferred at all,
however far that went. So a second attempt fails there, and it has not touched anything by then. -/
namespace Binder

open Binder.Tree (Expr NodeId)

/-- Where one comes to through the targets of selections and calls and the values of named arguments. -/
def Tree.Node.innermost {α : Type} : Tree.Node α → Tree.Node α
  | .selection _ target _ => target.innermost
  | .call _ target _ => target.innermost
  | .namedArgument _ _ value => value.innermost
  | e => e

namespace Inference

namespace State

variable {s s' : State} {e : Expr} {node : NodeId} {x : SymbolId}

theorem typeOf?_run (s : State) (ts : List Task)
    (h : s.typeOf? node = some x) : (s.run ts).1.typeOf? node = some x :=
  run_invariant (P := fun s => s.typeOf? node = some x) (fun h hs => typeOf?_step hs h) s ts h

/-- A run has gone from one state and its tasks to another by inferring nodes only. -/
structure Descends (s : State) (ts : List Task) (s' : State) (ts' : List Task) : Prop where
  undisturbed : s.Undisturbed s'
  run : s.run ts = s'.run ts'
  trace : ∃ es : List Expr, s.trace ts = (s'.trace ts').map (es.map Task.infer ++ ·) id

theorem Descends.infer (s : State) (e : Expr) (rest : List Task) :
    s.Descends (.infer e :: rest) (s.infer e).2 ((s.infer e).1 ++ rest) where
  undisturbed := undisturbed_infer s e
  run := run_cons_ok rfl
  trace := ⟨[e], trace_cons_ok rfl⟩

theorem Descends.trans {s'' : State} {ts ts' ts'' : List Task} (h : s.Descends ts s' ts')
    (h' : s'.Descends ts' s'' ts'') : s.Descends ts s'' ts'' where
  undisturbed := h.undisturbed.trans h'.undisturbed
  run := h.run.trans h'.run
  trace := by
    obtain ⟨es, hes⟩ := h.trace
    obtain ⟨es', hes'⟩ := h'.trace
    refine ⟨es ++ es', ?_⟩
    rw [hes, hes', Prod.map_map, List.map_append]
    congr 1
    funext done
    exact (List.append_assoc ..).symm

theorem exists_descends (s : State) (e : Expr) (rest : List Task) :
    ∃ s' symbol ts, s.Descends (.infer e :: rest) s' (.record e.innermost.id symbol :: ts) := by
  induction e using Tree.operands_induction generalizing s rest with
  | h e ih =>
    have hdown : ∀ x ∈ e.operands, ∀ ts, (s.infer e).1 = .infer x :: ts →
        e.innermost = x.innermost →
        ∃ s' symbol ts, s.Descends (.infer e :: rest) s' (.record e.innermost.id symbol :: ts) := by
      intro x hx ts htasks hsame
      obtain ⟨s', symbol, ts', hx'⟩ := ih x hx (s.infer e).2 (ts ++ rest)
      have hfirst := Descends.infer s e rest
      rw [htasks] at hfirst
      rw [hsame]
      exact ⟨s', symbol, ts', hfirst.trans hx'⟩
    cases e with
    | ident note name =>
      have hfirst := Descends.infer s (.ident note name) rest
      simp only [State.infer] at hfirst
      split at hfirst <;> exact ⟨_, _, _, hfirst⟩
    | selection note target member => exact hdown target List.mem_cons_self _ rfl rfl
    | call note target arguments => exact hdown target List.mem_cons_self _ rfl rfl
    | namedArgument note name value => exact hdown value List.mem_cons_self _ rfl rfl
    | literal | sequence | definition | typeLiteral | arrayType | referenceType | extension =>
      exact ⟨_, _, _, .infer s _ rest⟩

theorem step_record_of_typed {y : SymbolId} (h : s.typeOf? node = some x) :
    s.step (.record node y) = .error (.nodeRetyped node) := by
  simp [step, record, h]

/-- Once an expression was inferred, its innermost node has a symbol. -/
theorem innermost_typed (s : State) (e : Expr) :
    ∃ x, (Inference.infer s e).1.typeOf? e.innermost.id = some x := by
  obtain ⟨s', symbol, ts, h⟩ := exists_descends s e []
  rw [Inference.infer, h.run]
  cases hnode : s'.typeOf? e.innermost.id with
  | some x =>
    rw [run_cons_error (step_record_of_typed hnode)]
    exact ⟨x, hnode⟩
  | none =>
    have hrecord : ∃ new s'', s'.step (.record e.innermost.id symbol) = .ok (new, s'') ∧
        s''.typeOf? e.innermost.id = some symbol := by
      simp only [step, record, hnode]
      exact ⟨_, _, rfl, List.lookup_cons_self⟩
    obtain ⟨new, s'', hs, hsymbol⟩ := hrecord
    rw [run_cons_ok hs]
    exact ⟨symbol, typeOf?_run _ _ hsymbol⟩

/-- What may become of a state: operations are done on it, whether they succeed or not, and in between
anything may change but for the symbols of nodes. -/
inductive Precedes (s : State) : State → Prop
  | refl : Precedes s s
  | operate {s' : State} (op : Operation) : Precedes s s' → Precedes s (op.apply s').1
  | change {s' s'' : State} : Precedes s s' → s''.typed = s'.typed → Precedes s s''

theorem Precedes.typeOf? (h : s.Precedes s')
    (hnode : s.typeOf? node = some x) : s'.typeOf? node = some x := by
  induction h with
  | refl => exact hnode
  | @operate s' op _ ih =>
    rw [Operation.apply_eq]
    split
    next ts s₁ hstart =>
      apply typeOf?_run
      rw [State.typeOf?, (Operation.starts hstart).typed]
      exact ih
    next => exact ih
  | change _ htyped ih =>
    rw [State.typeOf?, htyped]
    exact ih

end State

/-- Inferring an expression again fails at its innermost node. No symbol and no type is given by that,
and nothing that waits is let go, added or dropped. -/
theorem infer_again_fails {s s' : State} {e : Expr} (h : (infer s e).1.Precedes s') :
    (infer s' e).2 = .error (.nodeRetyped e.innermost.id) ∧ s'.Undisturbed (infer s' e).1 ∧
      continuations (Operation.trace s' (.infer e)).1 = [] ∧
      registrations (Operation.trace s' (.infer e)).1 = [] := by
  obtain ⟨x, hx⟩ := State.innermost_typed s e
  obtain ⟨s₁, symbol, ts, hdescends⟩ := State.exists_descends s' e []
  have htyped : s₁.typeOf? e.innermost.id = some x := by
    rw [State.typeOf?, hdescends.undisturbed.typed]
    exact h.typeOf? hx
  have hfails := State.step_record_of_typed (y := symbol) htyped
  have hrun : infer s' e = (s₁, .error (.nodeRetyped e.innermost.id)) := by
    rw [infer, hdescends.run, State.run_cons_error hfails]
  obtain ⟨es, htrace⟩ := hdescends.trace
  have hdone : (Operation.trace s' (.infer e)).1 =
      es.map Task.infer ++ [.record e.innermost.id symbol] := by
    show (s'.trace [.infer e]).1 = _
    rw [htrace, State.trace_cons_error hfails]
    rfl
  rw [hrun, hdone]
  refine ⟨rfl, hdescends.undisturbed, ?_, ?_⟩
  · simp [continuations, Task.isContinuation]
  · simp [registrations, Task.registration?]

/-- `v.a(1)`, where nothing is known of the type of `v` at first. -/
def pendingCall : Expr :=
  .call ⟨⟨3⟩, default⟩ (.selection ⟨⟨1⟩, default⟩ (.ident ⟨⟨0⟩, default⟩ "v") "a")
    [.literal ⟨⟨2⟩, default⟩ (.int 1)]

/-- The call waits for the type of `v`. It cannot be inferred again, neither before nor after the type
is known. -/
theorem infer_again_fails_pendingCall :
    let first := (infer (.initial (Prelude.graph.newSymbol "v").2
      (.table [.value ⟨"v", ⟨29⟩, .field false⟩])) pendingCall).1
    let later := (unify first ⟨29⟩ Builtin.int.symbol).1
    first.queued.length = 2 ∧ (infer first pendingCall).2 = .error (.nodeRetyped ⟨0⟩) ∧
      (infer first pendingCall).1.waiting = first.waiting ∧
      (infer first pendingCall).1.blocked = first.blocked ∧
      later.queued.length = 0 ∧ (infer later pendingCall).2 = .error (.nodeRetyped ⟨0⟩) := by
  intro first later
  obtain ⟨hfails, hsame, -, -⟩ := infer_again_fails (.refl : first.Precedes first)
  have hlater : first.Precedes later := .operate (.unify ⟨29⟩ Builtin.int.symbol) .refl
  exact ⟨by decide +kernel, hfails, hsame.waiting, hsame.blocked, by decide +kernel,
    (infer_again_fails hlater).1⟩

end Inference
end Binder
