import Binder.Proofs.Inference.Ruling
import Binder.Proofs.Inference.Wakeup

/-! Calls gather the types of their operands. Whatever the order in which the types come in, and even
if some come in before the other operands were looked at, a call is resolved once, with the type of
each operand in its place, and it knows all the time how many types are missing. -/
namespace Binder.Inference

open Binder.Tree (Expr Mark NodeId)

variable {s s' : State} {ledger : Ledger}

/-- A continuation that hands no type to a call. -/
def WhenTyped.External (next : WhenTyped) : Prop :=
  ∀ call slot, next.charge (.toSlot call slot) = 0

def WhenBound.External (next : WhenBound) : Prop :=
  ∀ call slot, next.charge (.toSlot call slot) = 0

def Act.External (a : Act) : Prop := ∀ call slot, a.charge (.toSlot call slot) = 0

/-- What may be asked for from outside. Only the inference of a call lets types be handed to it. -/
def Operation.External : Operation → Prop
  | .pend _ next => next.External
  | .pendType _ _ next | .pendResolved _ next => next.External
  | .infer _ | .record _ _ | .unify _ _ | .bound _ => True

/-- A call that is resolved: its place among all calls, its node, and the types of its operands. -/
structure Resolution where
  call : Nat
  node : NodeId
  types : List TypeId

/-- The calls that were inferred and those that were resolved, each in order. -/
structure Ledger where
  inferred : List Expr
  resolved : List Resolution

namespace State

variable {s s' : State} {task : Task} {ts rest new : List Task}

def file (s : State) (call : Nat) (gathering : Gathering) : State :=
  { s with calls := s.calls.setIfInBounds call gathering }

/-- The call that is resolved by doing a task. -/
def resolution? (s : State) : Task → Option Resolution
  | .bound (.deliver call slot) t =>
      (s.calls[call]?).bind fun gathering =>
        let gathering := gathering.fill slot t
        if gathering.missing = 0 then
          some ⟨call, gathering.call.id, gathering.slots.filterMap id⟩
        else none
  | _ => none

section

variable {call : Nat} {gathering : Gathering} (h : s.calls[call]? = some gathering) (slot : Nat)
  (t : TypeId)
include h

theorem resolution?_deliver : s.resolution? (.bound (.deliver call slot) t) =
    if (gathering.fill slot t).missing = 0 then
      some ⟨call, gathering.call.id, (gathering.fill slot t).slots.filterMap id⟩
    else none := by
  rw [resolution?, h]
  rfl

/-- To hand a type to a call is to file it, and to resolve the call if there is a resolution. -/
theorem deliver_eq_resolution? : s.deliver call slot t =
    match s.resolution? (.bound (.deliver call slot) t) with
    | some r => (s.file call (gathering.fill slot t)).resolve (gathering.fill slot t) r.types
    | none => ([], s.file call (gathering.fill slot t)) := by
  rw [deliver_eq h, resolution?_deliver h]
  split <;> rfl

/-- A call that is resolved lets the symbol of its node be recorded. -/
theorem countP_resolution?_le (n : NodeId) :
    (s.resolution? (.bound (.deliver call slot) t)).toList.countP (fun r => r.node = n) ≤
      (records (s.deliver call slot t).1).countP (fun r => r.1 = n) := by
  rw [deliver_eq_resolution? h, resolution?_deliver h]
  split
  · simp [resolve_eq_pronounce, pronounce, records, Gathering.fill]
  · exact Nat.zero_le _

end

end State

namespace Ledger

/-- The ledger once a task was done in a state. -/
def add (ledger : Ledger) (s : State) (task : Task) : Ledger where
  inferred := ledger.inferred ++ task.call?.toList
  resolved := ledger.resolved ++ (s.resolution? task).toList

/-- How often the call in a place was resolved. -/
def times (ledger : Ledger) (call : Nat) : Nat := ledger.resolved.countP fun r => r.call = call

end Ledger

/-- The moments of a session in which nothing fails, with the tasks that are due. Between operations
types may be added and symbols bound, but a symbol that something waits for has to be handed over to
the next operation; the scope may change, and diagnostics may be taken. -/
inductive Moment : State → List Task → Ledger → Prop
  | start (graph : TypeGraph) (scope : Scope Declaration) :
      Moment (.initial graph scope) [] ⟨[], []⟩
  | operate {s s' : State} {ledger : Ledger} {ts : List Task} {op : Operation} (graph : TypeGraph)
      (scope : Scope Declaration) (diagnostics : List Diagnostic) : Moment s [] ledger →
      s.graph.Grows graph →
      (∀ w ∈ s.blocked, graph.bound? w.1 = s.graph.bound? w.1 ∨ op = .bound w.1) →
      op.External →
      op.start { s with graph := graph, scope := scope, diagnostics := diagnostics } = .ok (ts, s') →
      Moment s' ts ledger
  | step {s s' : State} {ledger : Ledger} {task : Task} {new rest : List Task} :
      Moment s (task :: rest) ledger → s.step task = .ok (new, s') →
      Moment s' (new ++ rest) (ledger.add s task)

namespace Ledger

variable {ledger ledger' : Ledger} {s s' : State} {task : Task} {ts rest new : List Task}
  {P Q : Expr → Prop} {node : Mark} {target : Expr} {arguments : List Expr} {call slot : Nat}
  {t : TypeId} {gathering : Gathering} {next : WhenBound}

/-! The continuations of calls belong to their operands. -/

/-- A continuation that hands no type to a call, or hands the type of an operand to the call of that
operand. -/
def ServesBound (ledger : Ledger) (P : Expr → Prop) (next : WhenBound) : Prop :=
  next.External ∨
    ∃ call slot e, next = .deliver call slot ∧ State.operand? ledger.inferred call slot = some e ∧ P e

def ServesTyped (ledger : Ledger) (P : Expr → Prop) (next : WhenTyped) : Prop :=
  next.External ∨ ∃ origin next', next = .resolve origin next' ∧ ledger.ServesBound P next'

def Serves (ledger : Ledger) (s : State) : Task → Prop
  | .pend node next => ledger.ServesTyped (fun e => e.id = node) next
  | .typed next symbol => ledger.ServesTyped (fun e => s.typeOf? e.id = some symbol) next
  | .pendType symbol _ next => ledger.ServesBound (fun e => s.typeOf? e.id = some symbol) next
  | .bound next t => ledger.ServesBound (fun e => s.resolved? e.id = some t) next
  | .act a _ => a.External
  | .infer _ | .record _ _ | .wake _ | .settle | .mismatch _ _ _ | .note _ => True

/-- Whatever waits and whatever is due hands the types of operands to the right calls. -/
def Attends (ledger : Ledger) (s : State) (ts : List Task) : Prop := s.Throughout (ledger.Serves s) ts

theorem inferred_add (ledger : Ledger) (s : State) (task : Task) :
    ledger.inferred <+: (ledger.add s task).inferred := List.prefix_append ..

theorem ServesBound.mono (hs : ledger.ServesBound P next)
    (h : ledger.inferred <+: ledger'.inferred) (himp : ∀ e, P e → Q e) :
    ledger'.ServesBound Q next := by
  rcases hs with hexternal | ⟨call, slot, e, rfl, he, hP⟩
  · exact .inl hexternal
  · exact .inr ⟨call, slot, e, rfl, State.operand?_of_prefix h he, himp e hP⟩

theorem ServesTyped.mono {next : WhenTyped} (hs : ledger.ServesTyped P next)
    (h : ledger.inferred <+: ledger'.inferred) (himp : ∀ e, P e → Q e) :
    ledger'.ServesTyped Q next := by
  rcases hs with hexternal | ⟨origin, next, rfl, hnext⟩
  · exact .inl hexternal
  · exact .inr ⟨origin, next, rfl, hnext.mono h himp⟩

/-- A continuation that waits for a symbol goes on to wait for its type. -/
theorem ServesTyped.resolve {origin : Span} (hs : ledger.ServesTyped P (.resolve origin next)) :
    ledger.ServesBound P next := by
  rcases hs with hexternal | ⟨origin', next', heq, hnext⟩
  · exact .inl hexternal
  · cases heq
    exact hnext

theorem external_of_mem {acts : List Act} {a : Act} (ha : a ∈ acts)
    (h : ∀ call slot, actsCharge (.toSlot call slot) acts = 0) : a.External := by
  intro call slot
  have hsum := h call slot
  obtain ⟨before, after, rfl⟩ := List.append_of_mem ha
  induction before with
  | nil =>
    rw [List.nil_append, actsCharge] at hsum
    exact Nat.eq_zero_of_add_eq_zero_right hsum
  | cons b before ih =>
    simp only [List.cons_append, actsCharge, Nat.add_eq_zero_iff] at h hsum
    exact ih (List.mem_append_right _ List.mem_cons_self) (fun c i => (h c i).2) hsum.2

theorem Serves.mono (hs : ledger.Serves s task) (h : ledger.inferred <+: ledger'.inferred)
    (hout : s.Outlasts s') : ledger'.Serves s' task := by
  cases task with
  | pend => exact ServesTyped.mono hs h fun _ => id
  | typed => exact ServesTyped.mono hs h fun _ => hout.typed
  | pendType => exact ServesBound.mono hs h fun _ => hout.typed
  | bound => exact ServesBound.mono hs h fun _ => hout.resolved?
  | act => exact hs
  | infer | record | wake | settle | mismatch | note => trivial

namespace Attends

theorem infer {e : Expr} (hsize : s.calls.size = ledger.inferred.length)
    (htask : task ∈ (s.infer e).1) : (ledger.add s (.infer e)).Serves (s.infer e).2 task := by
  cases State.opens_of_mem_infer htask with
  | verdict | operand => trivial
  | select | copy => exact .inl fun _ _ => rfl
  | @deliver node target x arguments i hx =>
    refine .inr ⟨x.span, _, rfl, .inr ⟨s.calls.size, i, x, rfl, ?_, rfl⟩⟩
    refine (State.operand?_eq (x := .call node target arguments) ?_).trans hx
    simp [add, Task.call?, hsize]

theorem onBound {t : TypeId} (hnext : ledger.ServesBound P next)
    (htask : task ∈ (s.onBound next t).1) : ledger.Serves s' task := by
  rcases State.of_mem_onBound htask with ⟨node, symbol, rfl⟩ | ⟨tag, acts, a, symbol, rfl, ha, rfl⟩
  · trivial
  · rcases hnext with hexternal | ⟨call, slot, e, heq, -⟩
    · exact external_of_mem ha hexternal
    · cases heq

theorem step (h : ledger.Attends s (task :: rest)) (hsize : s.calls.size = ledger.inferred.length)
    (hs : s.step task = .ok (new, s')) : (ledger.add s task).Attends s' (new ++ rest) := by
  have htask : ledger.Serves s task := h.tasks _ List.mem_cons_self
  have hledger := ledger.inferred_add s task
  have hout := State.outlasts_step hs
  have hlater := htask.mono hledger hout
  have hpasses : State.PassesOn (ledger.Serves s) ((ledger.add s task).Serves s') s s' :=
    { later := fun hserves => hserves.mono hledger hout
      told := fun hserves hsymbol => ServesTyped.mono hserves hledger fun e he => he ▸ hsymbol
      shown := fun hserves ht => ServesBound.mono hserves hledger fun e he =>
        Option.bind_eq_some_iff.mpr ⟨_, hout.typed he, ht⟩
      resolve := fun hserves => (hserves.mono hledger hout).resolve
      wake := fun _ => trivial
      settle := trivial }
  refine State.Throughout.step h hs hpasses fun hsource => ?_
  cases State.move_step hs with
  | infer => exact fun _ => infer hsize
  | bound => exact fun _ => onBound hlater
  | observe tag acts symbol =>
    intro t ht
    obtain ⟨a, ha, rfl⟩ := List.mem_map.mp ht
    rcases htask with hexternal | ⟨origin, next, heq, -⟩
    · exact external_of_mem ha hexternal
    · cases heq
  | @initialise _ _ _ unified => cases unified <;> simp [Serves]
  | actPend | actPendType => exact List.forall_mem_singleton.mpr (.inl htask)
  | copy | actInfer | actRecord => exact List.forall_mem_singleton.mpr trivial
  | actUnify | actBound => simp [Serves]
  | _ => exact hsource.elim

end Attends

/-! Calls are resolved once. -/

/-- How many symbols a node has got or is about to get. -/
def credit (n : NodeId) (s : State) (ts : List Task) : Nat :=
  (records ts).countP (fun r => r.1 = n) + if (s.typeOf? n).isSome then 1 else 0

/-- A step takes no credit away, and whatever it lets be recorded is added. -/
theorem credit_step (n : NodeId) (hs : s.step task = .ok (new, s')) :
    credit n s (task :: rest) + (records new).countP (fun r => r.1 = n) ≤ credit n s' (new ++ rest) := by
  have hkept : (if (s.typeOf? n).isSome then 1 else 0) ≤ if (s'.typeOf? n).isSome then 1 else 0 := by
    split
    next hsome =>
      obtain ⟨x, hx⟩ := Option.isSome_iff_exists.mp hsome
      simp [State.typeOf?_step hs hx]
    next => exact Nat.zero_le _
  have htask : (records [task]).countP (fun r => r.1 = n) + (if (s.typeOf? n).isSome then 1 else 0) ≤
      if (s'.typeOf? n).isSome then 1 else 0 := by
    cases task with
    | record node symbol =>
      by_cases hn : node = n
      · subst hn
        cases State.move_step hs with
        | record hnone =>
          rw [State.typeOf?] at hnone
          simp [records, State.typeOf?, hnone]
      · simpa [records, hn] using hkept
    | _ => simpa [records] using hkept
  simp only [credit, records_cons task rest, records_append, List.countP_append]
  omega

/-- What was resolved: each call once, as soon as nothing is missing, with the types of its operands,
and each node no more often than it has got a symbol or is about to. -/
structure Counts (ledger : Ledger) (s : State) (ts : List Task) : Prop where
  once : ∀ {call : Nat} {gathering : Gathering}, s.calls[call]? = some gathering →
    ledger.times call = if gathering.missing = 0 then 1 else 0
  types : ∀ r ∈ ledger.resolved, ∃ x, ledger.inferred[r.call]? = some x ∧ x.id = r.node ∧
    r.types.map some = x.operands.map fun e => s.resolved? e.id
  nodes : ∀ n, ledger.resolved.countP (fun r => r.node = n) ≤ credit n s ts

theorem types_outlast {types : List TypeId} {es : List Expr} (hout : s.Outlasts s')
    (h : types.map some = es.map fun e => s.resolved? e.id) :
    types.map some = es.map fun e => s'.resolved? e.id := by
  rw [h]
  refine List.map_congr_left fun e he => ?_
  have hmem : s.resolved? e.id ∈ types.map some := h ▸ List.mem_map_of_mem he
  obtain ⟨t, -, ht⟩ := List.mem_map.mp hmem
  rw [← ht, hout.resolved? ht.symm]

namespace Counts

theorem keep (h : ledger.Counts s (task :: rest)) (hs : s.step task = .ok (new, s'))
    (hcalls : s'.calls = s.calls) : ledger.Counts s' (new ++ rest) where
  once hcall := h.once (hcalls ▸ hcall)
  types := by
    intro r hr
    obtain ⟨x, hx, hnode, htypes⟩ := h.types r hr
    exact ⟨x, hx, hnode, types_outlast (State.outlasts_step hs) htypes⟩
  nodes n := (h.nodes n).trans ((Nat.le_add_right _ _).trans (credit_step n hs))

theorem times_eq_zero (h : ledger.Counts s ts) {call : Nat} (hcall : ledger.inferred.length ≤ call) :
    ledger.times call = 0 := by
  rw [times, List.countP_eq_zero]
  intro r hr heq
  obtain ⟨x, hx, -⟩ := h.types r hr
  have hlt := (List.getElem?_eq_some_iff.mp hx).1
  rw [of_decide_eq_true heq] at hlt
  omega

theorem infer_call (h : ledger.Counts s (.infer (.call node target arguments) :: rest))
    (hfiles : s.Files ledger.inferred) :
    (ledger.add s (.infer (.call node target arguments))).Counts
      (s.infer (.call node target arguments)).2
      ((s.infer (.call node target arguments)).1 ++ rest) := by
  have hresolved : (ledger.add s (.infer (.call node target arguments))).resolved =
      ledger.resolved := List.append_nil _
  refine ⟨?_, ?_, ?_⟩
  · intro call gathering hcall
    rw [times, hresolved]
    simp only [State.infer, Array.getElem?_push] at hcall
    split at hcall
    next heq =>
      cases hcall
      exact h.times_eq_zero (heq.trans hfiles.size).ge
    next => exact h.once hcall
  · intro r hr
    obtain ⟨x, hx, hrest⟩ := h.types r (hresolved ▸ hr)
    exact ⟨x, State.getElem?_of_prefix (ledger.inferred_add s _) hx, hrest⟩
  · intro n
    rw [hresolved]
    exact (h.nodes n).trans ((Nat.le_add_right _ _).trans (credit_step n rfl))

/-- A call is resolved when the last of its types comes in. -/
theorem once_deliver (h : ledger.Counts s (.bound (.deliver call slot) t :: rest))
    (hdelivering : s.Delivering (.bound (.deliver call slot) t :: rest))
    (hcall : s.calls[call]? = some gathering) {call' : Nat} {gathering' : Gathering}
    (hcall' : (s.deliver call slot t).2.calls[call']? = some gathering') :
    (ledger.add s (.bound (.deliver call slot) t)).times call' =
      if gathering'.missing = 0 then 1 else 0 := by
  have hcalls := (State.deliver_passes (m := .toSlot 0 0) hcall slot t).2
  rw [hcalls] at hcall'
  rw [times, add, State.resolution?_deliver hcall, List.countP_append, ← times]
  by_cases hsame : call' = call
  · subst hsame
    have hin := (Array.getElem?_eq_some_iff.mp hcall).1
    rw [Array.getElem?_setIfInBounds_self_of_lt hin] at hcall'
    cases hcall'
    -- The slot was empty, so the call has not been resolved before.
    have hempty := hdelivering.missing_fill hcall
    rw [h.once hcall, if_neg (by omega)]
    split <;> simp
  · rw [Array.getElem?_setIfInBounds_ne (Ne.symm hsame)] at hcall'
    rw [← h.once hcall']
    split <;> simp [Ne.symm hsame]

theorem deliver (h : ledger.Counts s (.bound (.deliver call slot) t :: rest))
    (hdelivering : s.Delivering (.bound (.deliver call slot) t :: rest))
    (hfiles : (s.deliver call slot t).2.Files ledger.inferred) :
    (ledger.add s (.bound (.deliver call slot) t)).Counts (s.deliver call slot t).2
      ((s.deliver call slot t).1 ++ rest) := by
  have hs : s.step (.bound (.deliver call slot) t) =
      .ok ((s.deliver call slot t).1, (s.deliver call slot t).2) := rfl
  obtain ⟨gathering, hcall, -⟩ := hdelivering.slot_of_deliver
  refine ⟨h.once_deliver hdelivering hcall, ?_, ?_⟩
  · intro r hr
    rw [show (ledger.add s (.bound (.deliver call slot) t)).inferred = ledger.inferred from
      List.append_nil _]
    rcases List.mem_append.mp hr with hr | hr
    · obtain ⟨x, hx, hnode, htypes⟩ := h.types r hr
      exact ⟨x, hx, hnode, types_outlast (State.outlasts_step hs) htypes⟩
    · rw [State.resolution?_deliver hcall, Option.mem_toList,
        Option.ite_none_right_eq_some] at hr
      obtain ⟨hzero, hr⟩ := hr
      cases hr
      have hfilled : (s.deliver call slot t).2.calls[call]? = some (gathering.fill slot t) := by
        rw [(State.deliver_passes (m := .toSlot 0 0) hcall slot t).2,
          Array.getElem?_setIfInBounds_self_of_lt (Array.getElem?_eq_some_iff.mp hcall).1]
      have hfull := (hdelivering.missing_fill hcall).2.symm.trans hzero
      obtain ⟨target, arguments, hknown, -⟩ := hfiles.calls hfilled
      refine ⟨_, hknown, rfl, ?_⟩
      rw [State.map_some_filterMap_id (State.all_isSome hfull), hfiles.slots_eq hfilled hknown hfull]
  · intro n
    rw [add, List.countP_append]
    calc ledger.resolved.countP _ + _
      _ ≤ credit n s (.bound (.deliver call slot) t :: rest) +
          (records (s.deliver call slot t).1).countP (fun r => r.1 = n) :=
        Nat.add_le_add (h.nodes n) (State.countP_resolution?_le hcall slot t n)
      _ ≤ credit n (s.deliver call slot t).2 ((s.deliver call slot t).1 ++ rest) :=
        credit_step n hs

end Counts

/-! All of it holds at every moment. -/

structure Books (ledger : Ledger) (s : State) (ts : List Task) : Prop where
  delivering : s.Delivering ts
  vigilant : s.Vigilant ts
  attends : ledger.Attends s ts
  files : s.Files ledger.inferred
  counts : ledger.Counts s ts

theorem add_of_outsideCalls (h : State.OutsideCalls task) : ledger.add s task = ledger := by
  have hcall : task.call? = none := by
    unfold Task.call?
    split
    · exact h.elim
    · rfl
  have hresolution : s.resolution? task = none := by
    unfold State.resolution?
    split
    · exact h.elim
    · rfl
  simp [add, hcall, hresolution]

/-- An operand whose type comes in is the one in that place of the call. -/
theorem Attends.operand (h : ledger.Attends s (.bound (.deliver call slot) t :: rest)) :
    ∃ e, State.operand? ledger.inferred call slot = some e ∧ s.resolved? e.id = some t := by
  rcases h.tasks _ List.mem_cons_self with hexternal | ⟨call', slot', e, heq, he, ht⟩
  · have hone := hexternal call slot
    simp [WhenBound.charge, Charge.toSlot] at hone
  · cases heq
    exact ⟨e, he, ht⟩

namespace Books

variable {op : Operation}

theorem counts_step (h : ledger.Books s (task :: rest)) (hs : s.step task = .ok (new, s'))
    (hfiles : s'.Files (ledger.add s task).inferred) :
    (ledger.add s task).Counts s' (new ++ rest) := by
  by_cases hout : State.OutsideCalls task
  · rw [add_of_outsideCalls hout]
    exact h.counts.keep hs (State.passes_step (m := .toSlot 0 0) hout hs).calls
  · unfold State.OutsideCalls at hout
    split at hout
    · obtain ⟨rfl, rfl⟩ := State.eq_of_ok hs
      exact h.counts.infer_call h.files
    next call slot t =>
      obtain ⟨rfl, rfl⟩ := State.eq_of_ok hs
      have hinferred : (ledger.add s (.bound (.deliver call slot) t)).inferred = ledger.inferred :=
        List.append_nil _
      exact h.counts.deliver h.delivering (hinferred ▸ hfiles)
    · exact absurd trivial hout

theorem step (h : ledger.Books s (task :: rest)) (hs : s.step task = .ok (new, s')) :
    (ledger.add s task).Books s' (new ++ rest) :=
  have hfiles : s'.Files (ledger.add s task).inferred :=
    h.files.step hs fun htask => Attends.operand (htask ▸ h.attends)
  ⟨h.delivering.step hs, h.vigilant.step hs, h.attends.step h.files.size hs, hfiles,
    h.counts_step hs hfiles⟩

theorem start (graph : TypeGraph) (scope : Scope Declaration) :
    (⟨[], []⟩ : Ledger).Books (.initial graph scope) [] where
  delivering := ⟨fun _ _ => rfl, by simp [State.initial]⟩
  vigilant := ⟨⟨nofun, nofun⟩, nofun⟩
  attends := ⟨nofun, nofun, nofun⟩
  files := ⟨rfl, by simp [State.initial], by simp [State.initial]⟩
  counts := ⟨by simp [State.initial], nofun, fun _ => Nat.zero_le _⟩

/-- Operations open no call, and what they ask for hands no type to one. -/
theorem opened (hexternal : op.External) (hstart : op.start s = .ok (ts, s')) :
    s'.calls = s.calls ∧ ∀ task ∈ ts, (∀ (ledger : Ledger) (s : State), ledger.Serves s task) ∧
      ∀ call slot, task.charge (.toSlot call slot) = 0 := by
  cases op with
  | infer e =>
    cases hstart
    exact ⟨rfl, List.forall_mem_singleton.mpr
      ⟨fun _ _ => trivial, fun _ _ => inferCharge_eq_zero (fun _ => rfl) e⟩⟩
  | record =>
    cases hstart
    exact ⟨rfl, List.forall_mem_singleton.mpr ⟨fun _ _ => trivial, fun _ _ => rfl⟩⟩
  | pend | pendType =>
    cases hstart
    exact ⟨rfl, List.forall_mem_singleton.mpr ⟨fun _ _ => .inl hexternal, hexternal⟩⟩
  | pendResolved e next =>
    cases hstart
    have hnext : WhenTyped.External (.resolve e.span next) := hexternal
    exact ⟨rfl, List.forall_mem_singleton.mpr ⟨fun _ _ => .inl hnext, hnext⟩⟩
  | unify first second =>
    simp only [Operation.start] at hstart
    cases hu : s.unify first second with
    | error e =>
      rw [hu] at hstart
      cases hstart
    | ok r =>
      rw [hu] at hstart
      cases hstart
      obtain ⟨graph, groups, -, heq⟩ := State.unify_eq hu
      rw [heq]
      exact ⟨rfl, List.forall_mem_singleton.mpr ⟨fun _ _ => trivial, fun _ _ => rfl⟩⟩
  | bound symbol =>
    cases hstart
    refine ⟨rfl, fun task htask => ?_⟩
    rcases List.mem_cons.mp htask with rfl | htask
    · exact ⟨fun _ _ => trivial, fun _ _ => rfl⟩
    · cases List.mem_singleton.mp htask
      exact ⟨fun _ _ => trivial, fun _ _ => rfl⟩

theorem operate {graph : TypeGraph} {scope : Scope Declaration}
    {diagnostics : List Diagnostic} (h : ledger.Books s []) (hgrows : s.graph.Grows graph)
    (hbound : ∀ w ∈ s.blocked, graph.bound? w.1 = s.graph.bound? w.1 ∨ op = .bound w.1)
    (hexternal : op.External)
    (hstart : op.start { s with graph := graph, scope := scope, diagnostics := diagnostics } =
      .ok (ts, s')) : ledger.Books s' ts := by
  have hstarts := Operation.starts hstart
  obtain ⟨hcalls, htasks⟩ := opened hexternal hstart
  have hout : s.Outlasts s' := by
    refine ⟨fun hx => ?_, hgrows.trans hstarts.grows⟩
    rw [State.typeOf?, hstarts.typed]
    exact hx
  refine ⟨⟨?_, fun hcall => h.delivering.missing (hcalls ▸ hcall)⟩, ?_, ⟨?_, ?_, ?_⟩,
    h.files.mono hout hcalls, fun hcall => h.counts.once (hcalls ▸ hcall), ?_, ?_⟩
  · intro call slot
    have howed : owed (.toSlot call slot) ts = 0 := by
      rw [owed, total_congr fun task htask => (htasks task htask).2 call slot, total_const,
        Nat.zero_mul]
    have hslots := h.delivering.slots call slot
    rw [owed_nil] at hslots
    rw [howed, State.held, State.vacant, hstarts.typed, hstarts.waiting, hstarts.blocked, hcalls]
    exact hslots
  · exact Session.vigilant_start (s := { s with scope := scope, diagnostics := diagnostics })
      ⟨⟨h.vigilant.alert.untyped, h.vigilant.alert.settling⟩, h.vigilant.awake⟩ hbound hstart
  · intro w hw
    exact h.attends.waiting w (hstarts.waiting ▸ hw)
  · intro w hw
    exact (h.attends.blocked w (hstarts.blocked ▸ hw)).mono List.prefix_rfl hout
  · exact fun task htask => (htasks task htask).1 ledger s'
  · intro r hr
    obtain ⟨x, hx, hnode, htypes⟩ := h.counts.types r hr
    exact ⟨x, hx, hnode, types_outlast hout htypes⟩
  · intro n
    refine (h.counts.nodes n).trans ?_
    rw [credit, credit, State.typeOf?, State.typeOf?, hstarts.typed]
    exact Nat.add_le_add_right (Nat.zero_le _) _

end Books

theorem books_of_moment (h : Moment s ts ledger) : ledger.Books s ts := by
  induction h with
  | start graph scope => exact .start graph scope
  | operate graph scope diagnostics _ hgrows hbound hexternal hstart ih =>
    exact ih.operate hgrows hbound hexternal hstart
  | step _ hs ih => exact ih.step hs

/-- Once nothing is due, a slot is empty only if the type of its operand is not known. -/
theorem Books.unresolved_of_empty (h : ledger.Books s []) (hcall : s.calls[call]? = some gathering)
    (hslot : gathering.slots[slot]? = some none) :
    ∃ e, State.operand? ledger.inferred call slot = some e ∧ s.resolved? e.id = none := by
  have hvacant : s.vacant call slot = 1 := by simp [State.vacant, hcall, hslot]
  have hheld := h.delivering.slots call slot
  rw [owed_nil, hvacant, Nat.zero_add, State.held] at hheld
  have hnode : total (fun p => (Charge.toSlot call slot).node p.1) s.typed = 0 := by
    simp only [Charge.toSlot]
    rw [total_const, Nat.zero_mul]
  have hserved : ∀ {P : Expr → Prop} {next : WhenBound}, ledger.ServesBound P next →
      0 < next.charge (.toSlot call slot) → ∃ e, State.operand? ledger.inferred call slot = some e ∧ P e := by
    rintro P next (hexternal | ⟨call', slot', e, rfl, he, hP⟩) hpos
    · rw [hexternal call slot] at hpos
      cases hpos
    · simp only [WhenBound.charge, Charge.toSlot] at hpos
      split at hpos
      next heq =>
        obtain ⟨rfl, rfl⟩ := heq
        exact ⟨e, he, hP⟩
      next => cases hpos
  -- What is owed to the slot waits for the operand or is blocked on its symbol.
  rcases Nat.eq_zero_or_pos (total (fun w => w.2.charge (.toSlot call slot)) s.waiting) with hnone | hpos
  · obtain ⟨w, hw, hpos⟩ := exists_pos_of_total_pos (l := s.blocked)
      (f := fun w => w.2.2.charge (.toSlot call slot)) (by omega)
    obtain ⟨e, he, hsymbol⟩ := hserved (h.attends.blocked w hw) hpos
    refine ⟨e, he, ?_⟩
    rw [State.resolved?, hsymbol, Option.bind_some, h.vigilant.unbound w hw]
  · obtain ⟨w, hw, hpos⟩ := exists_pos_of_total_pos hpos
    rcases h.attends.waiting w hw with hexternal | ⟨origin, next, heq, hnext⟩
    · rw [hexternal call slot] at hpos
      cases hpos
    · rw [heq] at hpos
      obtain ⟨e, he, hid⟩ := hserved hnext hpos
      refine ⟨e, he, ?_⟩
      rw [State.resolved?, hid, h.vigilant.alert.untyped w hw]
      rfl

end Ledger

/-- Whatever runs without failing goes from moment to moment. -/
theorem Moment.run {ts : List Task} (h : Moment s ts ledger)
    (hrun : s.run ts = (s', .ok ())) :
    ∃ ledger', Moment s' [] ledger' ∧ ledger.inferred <+: ledger'.inferred := by
  refine State.run_keeps (P := fun s ts => ∃ ledger', Moment s ts ledger' ∧
    ledger.inferred <+: ledger'.inferred) ?_ s ts ⟨ledger, h, List.prefix_rfl⟩ hrun
  rintro s task rest new s' ⟨ledger', hmoment, hprefix⟩ hs
  exact ⟨_, hmoment.step hs, hprefix.trans (ledger'.inferred_add s task)⟩

theorem Moment.apply {op : Operation} (h : Moment s [] ledger)
    (hexternal : op.External) (hop : op.apply s = (s', .ok ())) :
    ∃ ledger', Moment s' [] ledger' ∧ ledger.inferred <+: ledger'.inferred := by
  rw [Operation.apply_eq] at hop
  split at hop
  next ts s₁ hstart =>
    have hdue := h.operate s.graph s.scope s.diagnostics (.refl _) (fun _ _ => .inl rfl) hexternal hstart
    exact hdue.run hop
  next => cases hop

/-- A call is resolved at most once, and at the end of an operation exactly if the symbols of its target
and of all its arguments are known and bound. It is resolved with their types, each in its place, and
at every moment it knows how many of them are still missing. A type that is handed to it is filed, and
the call is resolved just then if that makes a resolution, with the types in it. -/
theorem Moment.call_fans_in {s : State} {ts : List Task} {ledger : Ledger} (h : Moment s ts ledger)
    {call : Nat} {node : Mark} {target : Expr} {arguments : List Expr}
    (hcall : ledger.inferred[call]? = some (.call node target arguments)) :
    ∃ gathering, s.calls[call]? = some gathering ∧ gathering.call = node ∧
      gathering.slots.length = 1 + arguments.length ∧
      gathering.missing = gathering.slots.countP Option.isNone ∧
      (ledger.times call = if gathering.missing = 0 then 1 else 0) ∧
      (∀ slot t, s.deliver call slot t =
        match s.resolution? (.bound (.deliver call slot) t) with
        | some r => (s.file call (gathering.fill slot t)).resolve (gathering.fill slot t) r.types
        | none => ([], s.file call (gathering.fill slot t))) ∧
      (∀ r ∈ ledger.resolved, r.call = call → r.node = node.id ∧
        r.types.map some = (target :: arguments).map fun e => s.resolved? e.id) ∧
      (ts = [] → (ledger.times call = 1 ↔ ∀ e ∈ target :: arguments, (s.resolved? e.id).isSome) ∧
        ledger.resolved.countP (fun r => r.node = node.id) ≤ 1) := by
  have hbooks := Ledger.books_of_moment h
  have hlt : call < s.calls.size := by
    rw [hbooks.files.size]
    exact (List.getElem?_eq_some_iff.mp hcall).1
  obtain ⟨gathering, hgathering⟩ : ∃ gathering, s.calls[call]? = some gathering :=
    ⟨_, Array.getElem?_eq_getElem hlt⟩
  obtain ⟨target', arguments', hknown, -, hlength⟩ := hbooks.files.calls hgathering
  cases hcall.symm.trans hknown
  have hmissing := hbooks.delivering.missing hgathering
  have hones := hbooks.counts.once hgathering
  refine ⟨gathering, hgathering, rfl, by omega, hmissing, hones, ?_, ?_, ?_⟩
  · exact State.deliver_eq_resolution? hgathering
  · rintro r hr rfl
    obtain ⟨x, hx, hnode, htypes⟩ := hbooks.counts.types r hr
    cases hx.symm.trans hknown
    exact ⟨hnode.symm, htypes⟩
  · rintro rfl
    have hcredit := hbooks.counts.nodes gathering.call.id
    refine ⟨?_, hcredit.trans ?_⟩
    · have hdone : ledger.times call = 1 ↔ gathering.missing = 0 := by
        rw [hones]
        split <;> simp_all
      rw [hdone, hmissing]
      constructor
      · intro hfull e he
        have hslots := hbooks.files.slots_eq hgathering hknown hfull
        have hmem : s.resolved? e.id ∈ gathering.slots := hslots ▸ List.mem_map_of_mem he
        simpa [Option.isSome_iff_ne_none] using List.countP_eq_zero.mp hfull _ hmem
      · intro hall
        rw [List.countP_eq_zero]
        intro content hcontent hnone
        obtain ⟨slot, hslot⟩ := List.getElem?_of_mem hcontent
        rw [Option.isNone_iff_eq_none.mp hnone] at hslot
        obtain ⟨e, he, hunresolved⟩ := hbooks.unresolved_of_empty hgathering hslot
        rw [State.operand?_eq hknown] at he
        have hsome := hall e (List.mem_of_getElem? he)
        rw [hunresolved] at hsome
        cases hsome
    · rw [Ledger.credit, records_nil, List.countP_nil, Nat.zero_add]
      split <;> omega

/-- `v + 1`, where nothing is known of the type of `v` at first. -/
def sumOfUnknown : Expr :=
  .call ⟨⟨3⟩, default⟩ (.ident ⟨⟨0⟩, default⟩ "+")
    [.ident ⟨⟨1⟩, default⟩ "v", .literal ⟨⟨2⟩, default⟩ (.int 1)]

def besideUnknown : State :=
  .initial (Prelude.graph.newSymbol "v").2
    (.table [.value ⟨"v", ⟨29⟩, .field false⟩, .value ⟨"+", ⟨Prelude.firstOperator⟩, .value⟩])

/-- The call is not resolved before the type of `v` is known, and once it is known, the call is resolved
with the types of the operator, of `v` and of the literal. -/
theorem call_fans_in_sumOfUnknown :
    let first := (infer besideUnknown sumOfUnknown).1
    let later := (unify first ⟨29⟩ Builtin.int.symbol).1
    let int := Prelude.graph.bound? Builtin.int.symbol
    ∃ before after : Ledger, Moment first [] before ∧ before.times 0 = 0 ∧
      Moment later [] after ∧ after.times 0 = 1 ∧
      ∀ r ∈ after.resolved, r.call = 0 →
        r.node = ⟨3⟩ ∧ r.types.map some = [first.resolved? ⟨0⟩, int, int] := by
  intro first later int
  have hdue : Moment besideUnknown [.infer sumOfUnknown] ⟨[], []⟩ :=
    .operate besideUnknown.graph besideUnknown.scope [] (.start _ besideUnknown.scope) (.refl _) nofun
      (show (Operation.infer sumOfUnknown).External from trivial) rfl
  obtain ⟨before, hbefore, hprefix⟩ := (hdue.step rfl).run
    ((State.run_cons_ok rfl).symm.trans (show _ = (first, _) from Prod.ext rfl (by decide +kernel)))
  obtain ⟨after, hafter, hprefix'⟩ := hbefore.apply
    (show (Operation.unify ⟨29⟩ Builtin.int.symbol).External from trivial)
    (show _ = (later, _) from Prod.ext rfl (by decide +kernel))
  have hknown : before.inferred[0]? = some sumOfUnknown :=
    State.getElem?_of_prefix hprefix rfl
  obtain ⟨gathering, -, -, -, -, htimes, -, -, hrest⟩ := hbefore.call_fans_in hknown
  obtain ⟨-, -, -, -, -, -, -, htypes, hrest'⟩ :=
    hafter.call_fans_in (State.getElem?_of_prefix hprefix' hknown)
  refine ⟨before, after, hbefore, ?_, hafter, (hrest' rfl).1.mpr (by decide +kernel), ?_⟩
  · have hunknown : before.times 0 ≠ 1 := (hrest rfl).1.not.mpr (by decide +kernel)
    split at htimes <;> omega
  · intro r hr hcall
    obtain ⟨hnode, hr⟩ := htypes r hr hcall
    exact ⟨hnode, hr.trans (by decide +kernel)⟩

end Binder.Inference
