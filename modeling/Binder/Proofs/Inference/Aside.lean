import Binder.Proofs.Inference.Deferral
import Binder.Proofs.Inference.Wakeup

/-! Expressions aside. An expression whose nodes nobody else has to do with is inferred as if it were
alone: what comes of it is what comes of an inference of its own, added to what is there already. So the
expressions of a series add up, and each can be left out without any effect on the others. -/
namespace Binder.Inference

open Binder.Tree (Expr Mark NodeId)

/-- The continuation with other numbers for calls, which start at `k`. -/
def WhenBound.shift (k : Nat) : WhenBound → WhenBound
  | .deliver call slot => .deliver (k + call) slot
  | next => next

def WhenTyped.shift (k : Nat) : WhenTyped → WhenTyped
  | .resolve origin next => .resolve origin (next.shift k)
  | next => next

def Task.shift (k : Nat) : Task → Task
  | .pend node next => .pend node (next.shift k)
  | .pendType symbol origin next => .pendType symbol origin (next.shift k)
  | .typed next symbol => .typed (next.shift k) symbol
  | .bound next t => .bound (next.shift k) t
  | task => task

namespace State

variable {s b b' : State} {E : List Expr} {task : Task} {new rest ts : List Task} {e : Expr}
  {node : NodeId} {t : TypeId} {symbol : SymbolId}

/-- A state to which is added what another one has come to. -/
def beside (s b : State) : State :=
  { s with
    typed := b.typed ++ s.typed
    waiting := s.waiting ++ b.waiting.map fun w => (w.1, w.2.shift s.calls.size)
    blocked := s.blocked ++ b.blocked.map fun w => (w.1, w.2.1, w.2.2.shift s.calls.size)
    calls := s.calls ++ b.calls
    diagnostics := s.diagnostics ++ b.diagnostics }

theorem typeOf?_beside (s b : State) (node : NodeId) :
    (s.beside b).typeOf? node = (b.typeOf? node).or (s.typeOf? node) :=
  List.lookup_append

theorem map_shift_gather (k call slot : Nat) (es : List Expr) :
    (gather call slot es).map (Task.shift k) = gather (k + call) slot es := by
  induction es generalizing slot with
  | nil => rfl
  | cons e rest ih => simp [gather, Task.shift, WhenTyped.shift, WhenBound.shift, ih]

theorem beside_pronounce (s b : State) (node : Mark) (v : Verdict) :
    (s.beside b).pronounce node v =
      ((b.pronounce node v).1.map (Task.shift s.calls.size), s.beside (b.pronounce node v).2) := by
  obtain ⟨symbol, fault⟩ := v
  cases fault <;> simp [pronounce, voice, report, beside, Task.shift]

theorem beside_infer (hscope : b.scope = s.scope) (e : Expr) :
    (s.beside b).infer e = ((b.infer e).1.map (Task.shift s.calls.size), s.beside (b.infer e).2) := by
  cases e with
  | ident node name =>
    rw [infer_ident, infer_ident, hscope]
    exact beside_pronounce ..
  | call node target arguments =>
    simp only [infer, map_shift_gather]
    simp [beside]
  | literal | selection | namedArgument =>
    simp [infer, Task.shift, WhenTyped.shift, WhenBound.shift]
  | sequence | definition | typeLiteral | arrayType | referenceType | extension =>
    simp [infer, reject, report, beside, Task.shift]

theorem beside_deliver {call slot : Nat} (hgraph : b.graph = s.graph) {gathering : Gathering}
    (hcall : b.calls[call]? = some gathering) :
    (s.beside b).deliver (s.calls.size + call) slot t =
      ((b.deliver call slot t).1.map (Task.shift s.calls.size), s.beside (b.deliver call slot t).2) := by
  have hcall' : (s.beside b).calls[s.calls.size + call]? = some gathering := by
    rw [← hcall]
    simp [beside, Array.getElem?_append]
  have hfiled : { s.beside b with
      calls := (s.beside b).calls.setIfInBounds (s.calls.size + call) (gathering.fill slot t) } =
      s.beside { b with calls := b.calls.setIfInBounds call (gathering.fill slot t) } := by
    simp [beside]
  rw [deliver_eq hcall, deliver_eq hcall', hfiled]
  split
  · rw [resolve_eq_pronounce, resolve_eq_pronounce]
    exact hgraph ▸ beside_pronounce ..
  · rfl

theorem beside_onBound {next : WhenBound} (hgraph : b.graph = s.graph)
    (hbare : next.isBare) (hd : b.Delivering (.bound next t :: rest)) :
    (s.beside b).onBound (next.shift s.calls.size) t =
      ((b.onBound next t).1.map (Task.shift s.calls.size), s.beside (b.onBound next t).2) := by
  cases next with
  | select node member =>
    simp only [WhenBound.shift, onBound, select_eq_pronounce]
    exact hgraph ▸ beside_pronounce ..
  | deliver call slot =>
    obtain ⟨gathering, hcall, -⟩ := hd.slot_of_deliver
    exact beside_deliver hgraph hcall
  | compare | observe => cases hbare

/-- The state has nothing to do with the nodes. -/
structure Aloof (E : List Expr) (s : State) : Prop where
  untyped : ∀ x ∈ E, s.typeOf? x.id = none
  unawaited : ∀ x ∈ E, ∀ w ∈ s.waiting, w.1 ≠ x.id

theorem beside_record {x : Expr} (h : s.Aloof E) (hx : x ∈ E)
    (hid : x.id = node) (hnone : b.typeOf? node = none) :
    (s.beside b).step (.record node symbol) =
      .ok (((b.waiting.filter fun w => w.1 = node).map fun w => .typed w.2 symbol).map
        (Task.shift s.calls.size), s.beside { b with
          typed := (node, symbol) :: b.typed
          waiting := b.waiting.filter fun w => !decide (w.1 = node) }) := by
  subst hid
  have huntyped : (s.beside b).typeOf? x.id = none := by
    rw [typeOf?_beside, hnone, h.untyped x hx, Option.none_or]
  have hwaiting : s.waiting.filter (fun w => w.1 = x.id) = [] :=
    List.filter_eq_nil_iff.mpr fun w hw => by simpa using h.unawaited x hx w hw
  have hkept : s.waiting.filter (fun w => !decide (w.1 = x.id)) = s.waiting :=
    List.filter_eq_self.mpr fun w hw => by simpa using h.unawaited x hx w hw
  simp only [step, record, huntyped]
  simp [beside, hwaiting, hkept, List.filter_map, Function.comp_def, Task.shift]

theorem exists_of_owed (h : b.Solo E (task :: rest)) (htask : task = .record node symbol) :
    ∃ x ∈ E, x.id = node := by
  have hn := h.counted node
  rw [htask, owed_cons, Task.charge] at hn
  have hpos : 0 < Tree.count node E := by
    simp only [Charge.toNode, ↓reduceIte] at hn
    omega
  obtain ⟨x, hx, hid⟩ := List.countP_pos_iff.mp hpos
  exact ⟨x, hx, by simpa using hid⟩

theorem Attends.exists_node {next : WhenTyped} (hE : Inferable E)
    (h : b.Attends E node next) : ∃ x ∈ E, x.id = node := by
  cases next with
  | resolve =>
    obtain ⟨x, hx, hid, -⟩ := h
    exact ⟨x, hx, hid⟩
  | copy =>
    obtain ⟨note, name, value, hmem, -, hid⟩ := h
    exact ⟨value, hE.operands _ hmem value List.mem_cons_self, hid⟩
  | initialise => exact h
  | observe => cases h

theorem beside_step (hsolo : b.Solo E (task :: rest)) (hcalm : task.isCalm) (hE : s.Aloof E)
    (hgraph : b.graph = s.graph) (hscope : b.scope = s.scope) (hs : b.step task = .ok (new, b')) :
    (s.beside b).step (task.shift s.calls.size) =
        .ok (new.map (Task.shift s.calls.size), s.beside b') ∧ ∀ t ∈ new, t.isCalm := by
  have htask := hsolo.provenance.tasks task List.mem_cons_self
  cases move_step hs with
  | infer e => exact ⟨congrArg Except.ok (beside_infer hscope e), calm_infer b e⟩
  | bound next t =>
    have hd := hsolo.linear.toDelivering
    exact ⟨congrArg Except.ok (beside_onBound hgraph hcalm hd), calm_onBound hcalm⟩
  | record hnone =>
    obtain ⟨x, hx, hid⟩ := exists_of_owed hsolo rfl
    refine ⟨beside_record hE hx hid hnone, ?_⟩
    intro task hnew
    obtain ⟨w, hw, rfl⟩ := List.mem_map.mp hnew
    exact hsolo.bare.waiting w (List.mem_filter.mp hw).1
  | @told node next symbol hsymbol =>
    have htyped : (s.beside b).typeOf? node = some symbol := by
      rw [typeOf?_beside, hsymbol, Option.some_or]
    refine ⟨?_, List.forall_mem_singleton.mpr hcalm⟩
    simp only [Task.shift, step, pend, htyped]
    rfl
  | @wait node next hnone =>
    obtain ⟨x, hx, rfl⟩ := Attends.exists_node hsolo.provenance.toInferable htask
    have huntyped : (s.beside b).typeOf? x.id = none := by
      rw [typeOf?_beside, hnone, hE.untyped x hx, Option.none_or]
    refine ⟨?_, List.forall_mem_nil _⟩
    simp only [Task.shift, step, pend, huntyped]
    simp [beside]
  | @shown symbol origin next t ht =>
    have hbound : (s.beside b).graph.bound? symbol = some t := hgraph ▸ ht
    refine ⟨?_, List.forall_mem_singleton.mpr hcalm⟩
    simp only [Task.shift, step, pendType, hbound]
    rfl
  | @block symbol origin next hnone =>
    have hunbound : (s.beside b).graph.bound? symbol = none := hgraph ▸ hnone
    refine ⟨?_, List.forall_mem_nil _⟩
    simp only [Task.shift, step, pendType, hunbound]
    simp [beside]
  | resolve => exact ⟨rfl, List.forall_mem_singleton.mpr hcalm⟩
  | copy => exact ⟨rfl, List.forall_mem_singleton.mpr rfl⟩
  | _ => cases hcalm

/-- A run of an expression that is inferred alone is the same run beside others. -/
theorem beside_run (hsolo : b.Solo E ts) (hcalm : ∀ task ∈ ts, task.isCalm) (hE : s.Aloof E)
    (hgraph : b.graph = s.graph) (hscope : b.scope = s.scope) :
    ∃ b', b.run ts = (b', .ok ()) ∧
      (s.beside b).run (ts.map (Task.shift s.calls.size)) = (s.beside b', .ok ()) ∧
      b'.graph = s.graph ∧ b'.scope = s.scope := by
  have hrun := run_ok (P := fun b₁ ts₁ => b₁.Solo E ts₁ ∧ (∀ task ∈ ts₁, task.isCalm) ∧
    b₁.graph = s.graph ∧ b₁.scope = s.scope ∧
    (s.beside b).run (ts.map (Task.shift s.calls.size)) =
      (s.beside b₁).run (ts₁.map (Task.shift s.calls.size))) ?_ b ts ⟨hsolo, hcalm, hgraph, hscope, rfl⟩
  · obtain ⟨b', hb', -, -, hgraph', hscope', hsame⟩ := hrun
    refine ⟨b', hb', ?_, hgraph', hscope'⟩
    rw [hsame, List.map_nil, State.run]
  · rintro b₁ task rest ⟨hsolo, hcalm, hgraph, hscope, hsame⟩
    obtain ⟨new, b₂, hs, hsolo', hspares⟩ := hsolo.step
    obtain ⟨hbeside, hnew⟩ := beside_step hsolo (hcalm task List.mem_cons_self) hE hgraph hscope hs
    refine ⟨new, b₂, hs, hsolo', ?_, hspares.graph.trans hgraph, hspares.scope.trans hscope, ?_⟩
    · exact List.forall_mem_append.mpr ⟨hnew, fun t ht => hcalm t (List.mem_cons_of_mem task ht)⟩
    · rw [hsame, List.map_cons, run_cons_ok hbeside, List.map_append]

theorem untyped_of_tally (h : s.tally node = 0) : s.typeOf? node = none := by
  by_contra hne
  have hone := one_le_tally (Option.isSome_iff_ne_none.mpr hne)
  omega

/-- The state in which an expression was inferred alone. -/
def alone (g : TypeGraph) (scope : Scope Declaration) (e : Expr) : State :=
  (Inference.infer (.initial g scope) e).1

theorem Followed.aloof (h : s.Followed E) (honce : ∀ n, inferCharge (.toNode n) e + s.tally n ≤ 1) :
    s.Aloof e.reached := by
  have htally : ∀ x ∈ e.reached, s.tally x.id = 0 := by
    intro x hx
    have hone := honce x.id
    have hcount : 0 < Tree.count x.id e.reached := List.countP_pos_iff.mpr ⟨x, hx, by simp⟩
    rw [inferCharge_eq_count] at hone
    omega
  constructor
  · intro x hx
    exact untyped_of_tally (htally x hx)
  · intro x hx w hw heq
    obtain ⟨y, hy, hid⟩ := Attends.exists_node h.provenance.toInferable (h.provenance.waiting w hw)
    have hcounted := h.counted x.id
    have hcount : 0 < Tree.count x.id E := List.countP_pos_iff.mpr ⟨y, hy, by simp [hid, heq]⟩
    have hnone := htally x hx
    omega

/-- An expression is inferred as if it were alone. -/
theorem Followed.infer_beside (h : s.Followed E)
    (honce : ∀ n, inferCharge (.toNode n) e + s.tally n ≤ 1) :
    s.run [.infer e] = (s.beside (alone s.graph s.scope e), .ok ()) ∧
      (alone s.graph s.scope e).Solo e.reached [] := by
  have hsolo := (Solo.initial s.graph s.scope).begin
    fun n => Nat.le_trans (Nat.le_add_right _ _) (honce n)
  have hempty : s.beside (.initial s.graph s.scope) = s := by simp [beside, State.initial]
  obtain ⟨b, hb, hrun, -⟩ := beside_run hsolo (List.forall_mem_singleton.mpr rfl) (h.aloof honce) rfl rfl
  obtain ⟨b', hb', hdone, -⟩ := hsolo.run
  cases hb.symm.trans hb'
  have halone : alone s.graph s.scope e = b := congrArg Prod.fst hb
  rw [halone]
  rw [hempty] at hrun
  exact ⟨hrun, hdone⟩

/-- Expressions were added to a state: each has reported what it does alone and waits for what it waits
for alone, and of the nodes that were there none has changed its symbol. -/
structure Added (E xs : List Expr) (s s' : State) : Prop where
  graph : s'.graph = s.graph
  typed : ∀ x ∈ E, s'.typeOf? x.id = s.typeOf? x.id
  reports : s'.diagnostics = s.diagnostics ++ xs.flatMap fun e => (alone s.graph s.scope e).diagnostics
  origins : s'.blocked.map (fun w => w.2.1) = s.blocked.map (fun w => w.2.1) ++
    xs.flatMap fun e => (alone s.graph s.scope e).blocked.map fun w => w.2.1

theorem Followed.infer_each (h : s.Followed E) (xs : List Expr)
    (honce : ∀ n, owed (.toNode n) (xs.map .infer) + s.tally n ≤ 1) :
    ∃ s', s.run (xs.map .infer) = (s', .ok ()) ∧ Added E xs s s' := by
  induction xs generalizing s E with
  | nil => exact ⟨s, by rw [List.map_nil, State.run], rfl, fun _ _ => rfl, by simp, by simp⟩
  | cons e xs ih =>
    have hfirst : ∀ n, inferCharge (.toNode n) e + s.tally n ≤ 1 := by
      intro n
      have hn := honce n
      rw [List.map_cons, owed_cons, Task.charge] at hn
      omega
    obtain ⟨hrun, hsolo⟩ := h.infer_beside hfirst
    have hlinear : s.Linear [.infer e] := by
      apply h.linear.begin
      · intro call slot
        rw [owed_cons, owed_nil, Task.charge, inferCharge_eq_zero fun _ => rfl]
      · intro n
        rw [owed_cons, owed_nil, Task.charge]
        exact hfirst n
    obtain ⟨-, htally⟩ := hlinear.run hrun
    obtain ⟨s', hrun', hadded⟩ := ih (h.infer hfirst hrun) fun n => by
      have hn := honce n
      rw [List.map_cons, owed_cons, Task.charge] at hn
      rw [htally, owed_cons, owed_nil, Task.charge]
      omega
    refine ⟨s', ?_, hadded.graph, ?_, ?_, ?_⟩
    · have hsplit : (e :: xs).map Task.infer = [.infer e] ++ xs.map .infer := rfl
      rw [hsplit, run_append, hrun]
      exact hrun'
    · intro x hx
      have hsame := hadded.typed x (List.mem_append_left _ hx)
      have hnone : (alone s.graph s.scope e).typeOf? x.id = none := by
        apply untyped_of_tally
        have hcount : 0 < Tree.count x.id E := List.countP_pos_iff.mpr ⟨x, hx, by simp⟩
        have hn := hfirst x.id
        have hcounted := h.counted x.id
        have hsolo := hsolo.counted x.id
        rw [owed_nil, ← inferCharge_eq_count] at hsolo
        omega
      rw [hsame, typeOf?_beside, hnone, Option.none_or]
    · rw [hadded.reports]
      simp [beside]
    · rw [hadded.origins]
      simp [beside]

end State
end Binder.Inference
