import Binder.Proofs.Inference.Verdict

/-! What is still owed in a run of inference. A task or a continuation owes a symbol to the nodes that
will be typed through it, and a type to the slots of calls that it will fill. Steps pass on what they
owe: nothing is lost and nothing is owed twice. -/
namespace Binder.Inference

open Binder.Tree (Expr Mark NodeId)

variable {α : Type}

theorem total_congr {f g : α → Nat} {l : List α} (h : ∀ a ∈ l, f a = g a) :
    total f l = total g l := by
  induction l with
  | nil => rfl
  | cons a l ih => simp_all

theorem total_le_total {f g : α → Nat} {l : List α} (h : ∀ a ∈ l, f a ≤ g a) :
    total f l ≤ total g l := by
  induction l with
  | nil => exact Nat.le_refl 0
  | cons a l ih =>
    rw [List.forall_mem_cons] at h
    exact Nat.add_le_add h.1 (ih h.2)

/-- What it counts to owe a symbol to a node, and a type to a slot of a call. -/
structure Charge where
  node : NodeId → Nat
  slot : Nat → Nat → Nat

variable (m : Charge)

mutual

/-- The nodes that get a symbol through the inference of an expression. -/
def inferCharge : Expr → Nat
  | .selection node target _ => m.node node.id + inferCharge target
  | .call node target arguments => m.node node.id + inferCharge target + inferCharges arguments
  | .namedArgument node _ value => m.node node.id + inferCharge value
  | e => m.node e.id

def inferCharges : List Expr → Nat
  | [] => 0
  | e :: rest => inferCharge e + inferCharges rest

end

theorem inferCharges_eq (es : List Expr) : inferCharges m es = total (inferCharge m) es := by
  induction es with
  | nil => rfl
  | cons e es ih => rw [inferCharges, total_cons, ih]

theorem inferCharge_eq (e : Expr) :
    inferCharge m e = m.node e.id + total (inferCharge m) e.operands := by
  cases e with
  | call =>
    simp only [inferCharge, Tree.Node.operands, total_cons, inferCharges_eq, Nat.add_assoc]
    rfl
  | _ => rfl

mutual

def WhenTyped.charge : WhenTyped → Nat
  | .resolve _ next => next.charge
  | .copy node => m.node node
  | .initialise _ _ => 0
  | .observe _ acts => actsCharge acts

def WhenBound.charge : WhenBound → Nat
  | .select node _ => m.node node.id
  | .deliver call slot => m.slot call slot
  | .compare _ _ => 0
  | .observe _ acts => actsCharge acts

def Act.charge : Act → Nat
  | .infer e => inferCharge m e
  | .record node => m.node node
  | .pend _ next => next.charge
  | .pendType _ _ next => next.charge
  | .unify _ => 0
  | .bound _ => 0

def actsCharge : List Act → Nat
  | [] => 0
  | a :: rest => a.charge + actsCharge rest

end

def Task.charge : Task → Nat
  | .infer e => inferCharge m e
  | .record node _ => m.node node
  | .pend _ next => next.charge m
  | .pendType _ _ next => next.charge m
  | .typed next _ => next.charge m
  | .bound next _ => next.charge m
  | .wake _ => 0
  | .settle => 0
  | .mismatch _ _ _ => 0
  | .note _ => 0
  | .act a _ => a.charge m

def owed (ts : List Task) : Nat := total (Task.charge m) ts

@[simp] theorem owed_nil : owed m [] = 0 := rfl

@[simp] theorem owed_cons (t : Task) (ts : List Task) : owed m (t :: ts) = t.charge m + owed m ts :=
  rfl

@[simp] theorem owed_append (ts us : List Task) : owed m (ts ++ us) = owed m ts + owed m us :=
  total_append ..

theorem owed_act (acts : List Act) (symbol : SymbolId) :
    owed m (acts.map (.act · symbol)) = actsCharge m acts := by
  induction acts with
  | nil => simp [actsCharge]
  | cons a rest ih => simp [actsCharge, Task.charge, ih]

/-- What is owed to the slots of a call from a given slot on. -/
def slotsCharge (call : Nat) : (slot count : Nat) → Nat
  | _, 0 => 0
  | slot, count + 1 => m.slot call slot + slotsCharge call (slot + 1) count

namespace State

/-- What the nodes that are typed have got, and what the waiting continuations owe. -/
def held (s : State) : Nat :=
  total (fun p => m.node p.1) s.typed + total (fun w => w.2.charge m) s.waiting +
    total (fun w => w.2.2.charge m) s.blocked

theorem owed_gather (call slot : Nat) (es : List Expr) :
    owed m (gather call slot es) = inferCharges m es + slotsCharge m call slot es.length := by
  induction es generalizing slot with
  | nil => rfl
  | cons e rest ih =>
    simp only [gather, owed_cons, Task.charge, WhenTyped.charge, WhenBound.charge, ih,
      inferCharges, List.length_cons, slotsCharge]
    omega

variable {m} {s s' : State}

@[simp] theorem held_note (line : Option String) : (s.note line).held m = s.held m := rfl

@[simp] theorem held_mismatch (expected found : SymbolId) (origin : Span) :
    (s.mismatch expected found origin).held m = s.held m := by
  unfold mismatch
  split <;> rfl

/-- What was owed is owed by new tasks and a new state, and the calls are what they were. -/
structure Passes (m : Charge) (charge : Nat) (s : State) (new : List Task) (s' : State) :
    Prop where
  owed : owed m new + s'.held m = charge + s.held m
  calls : s'.calls = s.calls

theorem passes_pronounce (s : State) (node : Mark) (v : Verdict) :
    Passes m (m.node node.id) s (s.pronounce node v).1 (s.pronounce node v).2 where
  owed := by
    have hs := undisturbed_pronounce s node v
    rw [held, hs.typed, hs.waiting, hs.blocked]
    simp [pronounce, Task.charge, held]
  calls := calls_pronounce node v

theorem passes_infer {e : Expr} (he : ∀ node target arguments, e ≠ .call node target arguments) :
    Passes m (inferCharge m e) s (s.infer e).1 (s.infer e).2 := by
  cases e with
  | literal node value => exact passes_pronounce s node ⟨Prelude.literalType value, none⟩
  | ident node name =>
    rw [infer_ident]
    exact passes_pronounce ..
  | selection node target member =>
    refine ⟨?_, rfl⟩
    simp only [infer, inferCharge, owed_cons, owed_nil, Task.charge, WhenTyped.charge,
      WhenBound.charge]
    omega
  | call node target arguments => exact absurd rfl (he node target arguments)
  | namedArgument node name value =>
    refine ⟨?_, rfl⟩
    simp only [infer, inferCharge, owed_cons, owed_nil, Task.charge, WhenTyped.charge]
    omega
  | sequence | definition | typeLiteral | arrayType | referenceType | extension =>
    exact passes_pronounce s _ (.rejected .unknownNode)

/-- A call opens as many slots as it has operands. -/
theorem infer_call (node : Mark) (target : Expr) (arguments : List Expr) :
    owed m (s.infer (.call node target arguments)).1 +
        (s.infer (.call node target arguments)).2.held m + m.node node.id =
      inferCharge m (.call node target arguments) + s.held m +
        slotsCharge m s.calls.size 0 (arguments.length + 1) ∧
    (s.infer (.call node target arguments)).2.calls = s.calls.push (.start node arguments) := by
  refine ⟨?_, rfl⟩
  simp only [infer, owed_gather, inferCharges, inferCharge, List.length_cons, held]
  omega

theorem passes_onBound {next : WhenBound} (hn : ∀ call slot, next ≠ .deliver call slot)
    (t : TypeId) : Passes m (next.charge m) s (s.onBound next t).1 (s.onBound next t).2 := by
  cases next with
  | select node member =>
    rw [onBound, select_eq_pronounce]
    exact passes_pronounce ..
  | deliver call slot => exact absurd rfl (hn call slot)
  | compare expected origin =>
    simp only [onBound, WhenBound.charge]
    split
    · exact ⟨by simp, rfl⟩
    · refine ⟨by simp, ?_⟩
      unfold mismatch
      split <;> rfl
  | observe tag acts => exact ⟨by simp [onBound, owed_act, WhenBound.charge], rfl⟩

/-- Neither the opening of a call nor the delivery of a type to one. -/
def OutsideCalls : Task → Prop
  | .infer (.call ..) => False
  | .bound (.deliver ..) _ => False
  | _ => True

theorem passes_step {t : Task} (ht : OutsideCalls t) {new : List Task}
    (h : s.step t = .ok (new, s')) : Passes m (t.charge m) s new s' := by
  cases move_step h with
  | infer e =>
    refine passes_infer ?_
    rintro node target arguments rfl
    exact ht
  | @record node symbol hnone =>
    refine ⟨?_, rfl⟩
    have hsplit := total_filter_add (fun w : NodeId × WhenTyped => w.2.charge m)
      (fun w => decide (w.1 = node)) s.waiting
    simp only [owed, total_map, Task.charge, held, total_cons]
    omega
  | wait | block =>
    refine ⟨?_, rfl⟩
    simp only [owed_nil, held, total_append, total_cons, total_nil, Task.charge]
    omega
  | bound next t =>
    refine passes_onBound ?_ t
    rintro call slot rfl
    exact ht
  | @wake symbol =>
    refine ⟨?_, rfl⟩
    have hsplit := total_filter_add (fun w : SymbolId × Span × WhenBound => w.2.2.charge m)
      (fun w => decide (w.1 = symbol)) s.blocked
    simp only [owed, total_map, Task.charge, held]
    omega
  | settle =>
    refine ⟨?_, rfl⟩
    simp only [owed, total_append, total_map, Task.charge, total_const, total_cons, total_nil, held]
    omega
  | mismatch =>
    refine ⟨by simp [Task.charge], ?_⟩
    unfold mismatch
    split <;> rfl
  | observe => exact ⟨by simp [owed_act, Task.charge, WhenTyped.charge], rfl⟩
  | @initialise _ _ _ unified =>
    cases unified <;> exact ⟨by simp [Task.charge, WhenTyped.charge, held], rfl⟩
  | _ => exact ⟨by simp [Task.charge, WhenTyped.charge, Act.charge, held, note, settleBound], rfl⟩

end State
end Binder.Inference
