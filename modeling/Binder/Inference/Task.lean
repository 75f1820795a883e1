import Binder.TypeGraph.Basic

/-! The work of type inference, cut into tasks. What has to wait for a type is kept as data: what to
do once a node has a type symbol, and what to do once a symbol is bound. -/
namespace Binder.Inference

open Binder.Tree (Expr Mark NodeId)

mutual

/-- What happens once a node has a type symbol. -/
inductive WhenTyped where
  /-- wait until the symbol is bound, too -/
  | resolve (origin : Span) (next : WhenBound)
  /-- give the symbol to another node -/
  | copy (node : NodeId)
  /-- unify the symbol of a value with that of its initialiser -/
  | initialise (value : SymbolId) (origin : Span)
  /-- note the symbol in the journal and go on -/
  | observe (tag : String) (acts : List Act)

/-- What happens once a symbol is bound to a type. -/
inductive WhenBound where
  /-- look a member up in the type and give its symbol to a node -/
  | select (node : Mark) (member : String)
  /-- hand the type to a call that gathers the types of its target and arguments -/
  | deliver (call slot : Nat)
  /-- compare the type with the one that a parameter expects of its fallback -/
  | compare (expected : SymbolId) (origin : Span)
  /-- note the type in the journal and go on -/
  | observe (tag : String) (acts : List Act)

/-- What an observer does with the symbol that it is shown. -/
inductive Act where
  | infer (e : Expr)
  | record (node : NodeId)
  | pend (node : NodeId) (next : WhenTyped)
  | pendType (symbol : SymbolId) (origin : Span) (next : WhenBound)
  | unify (symbol : SymbolId)
  | bound (symbol : SymbolId)

end

/-- A step of inference that is due. -/
inductive Task where
  | infer (e : Expr)
  | record (node : NodeId) (symbol : SymbolId)
  | pend (node : NodeId) (next : WhenTyped)
  | pendType (symbol : SymbolId) (origin : Span) (next : WhenBound)
  | typed (next : WhenTyped) (symbol : SymbolId)
  | bound (next : WhenBound) (type : TypeId)
  | wake (symbol : SymbolId)
  | settle
  | mismatch (expected found : SymbolId) (origin : Span)
  | note (line : String)
  | act (a : Act) (symbol : SymbolId)

mutual

/-- A bound on the tasks that can come of inferring a node. -/
def inferWeight : Expr → Nat
  | .selection _ target _ => inferWeight target + 6
  | .call _ target arguments => inferWeight target + inferWeights arguments + 6
  | .namedArgument _ _ value => inferWeight value + 4
  | _ => 2

/-- A bound on the tasks that can come of inferring nodes and gathering their types. -/
def inferWeights : List Expr → Nat
  | [] => 0
  | e :: rest => inferWeight e + 5 + inferWeights rest

end

mutual

/-- A bound on the tasks that can still come of what waits for a node. -/
def WhenTyped.weight : WhenTyped → Nat
  | .resolve _ next => next.weight + 2
  | .copy _ => 2
  | .initialise _ _ => 3
  | .observe _ acts => actsWeight acts + 1

def WhenBound.weight : WhenBound → Nat
  | .select _ _ => 2
  | .deliver _ _ => 2
  | .compare _ _ => 1
  | .observe _ acts => actsWeight acts + 1

def Act.weight : Act → Nat
  | .infer e => inferWeight e + 1
  | .record _ => 2
  | .pend _ next => next.weight + 2
  | .pendType _ _ next => next.weight + 2
  | .unify _ => 3
  | .bound _ => 3

def actsWeight : List Act → Nat
  | [] => 0
  | a :: rest => a.weight + actsWeight rest

end

def Task.weight : Task → Nat
  | .infer e => inferWeight e
  | .record _ _ => 1
  | .pend _ next => next.weight + 1
  | .pendType _ _ next => next.weight + 1
  | .typed next _ => next.weight
  | .bound next _ => next.weight
  | .wake _ => 1
  | .settle => 1
  | .mismatch _ _ _ => 1
  | .note _ => 1
  | .act a _ => a.weight

/-- The sum of a measure over a list. -/
def total {α : Type} (f : α → Nat) : List α → Nat
  | [] => 0
  | a :: rest => f a + total f rest

@[simp] theorem total_nil {α : Type} (f : α → Nat) : total f [] = 0 := rfl

@[simp] theorem total_cons {α : Type} (f : α → Nat) (a : α) (l : List α) :
    total f (a :: l) = f a + total f l := rfl

@[simp] theorem total_append {α : Type} (f : α → Nat) (l r : List α) :
    total f (l ++ r) = total f l + total f r := by
  induction l with
  | nil => simp
  | cons a l ih => simp only [List.cons_append, total_cons, ih]; omega

/-- What passes a test and what fails it make up the whole. -/
theorem total_filter_add {α : Type} (f : α → Nat) (p : α → Bool) (l : List α) :
    total f (l.filter p) + total f (l.filter fun a => !p a) = total f l := by
  induction l with
  | nil => rfl
  | cons a l ih =>
    cases h : p a <;> simp only [List.filter_cons, h, total_cons] <;> simp <;> omega

theorem total_map {α β : Type} (f : β → Nat) (h : α → β) (l : List α) :
    total f (l.map h) = total (fun a => f (h a)) l := by
  induction l with
  | nil => rfl
  | cons a l ih => simp [ih]

theorem total_const {α : Type} (n : Nat) (l : List α) : total (fun _ => n) l = n * l.length := by
  induction l with
  | nil => rfl
  | cons a l ih => simp only [total_cons, ih, List.length_cons, Nat.mul_add]; omega

end Binder.Inference
