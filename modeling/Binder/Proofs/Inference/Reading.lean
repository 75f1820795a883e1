import Binder.Proofs.Inference.Verdict

/-! Reading expressions off a graph. The verdict about an expression is told by recursion on the
expression alone, without any run of inference: it exists if the types that it depends on are in the
graph. -/
namespace Binder.Inference

open Binder.Tree (Expr Mark Node NodeId)

variable {α : Type} {g : TypeGraph} {scope : Scope Declaration} {note : α} {target : Node α}

mutual

/-- The verdict about an expression, if a graph and a scope are enough to tell it. -/
def reading? (g : TypeGraph) (scope : Scope Declaration) : Node α → Option Verdict
  | .literal _ value => some ⟨Prelude.literalType value, none⟩
  | .ident _ name => some (.ofName scope name)
  | .selection _ target member =>
      ((reading? g scope target).bind fun v => g.bound? v.symbol).map (.ofMember g member)
  | .call _ target arguments =>
      ((reading? g scope target).bind fun v => g.bound? v.symbol).bind fun t =>
        (readings? g scope arguments).map fun ts =>
          .ofCall g (arguments.map Node.argumentName?) (t :: ts)
  | .namedArgument _ _ value => (reading? g scope value).map fun v => ⟨v.symbol, none⟩
  | _ => some (.rejected .unknownNode)

def readings? (g : TypeGraph) (scope : Scope Declaration) : List (Node α) → Option (List TypeId)
  | [] => some []
  | e :: rest =>
      ((reading? g scope e).bind fun v => g.bound? v.symbol).bind fun t =>
        (readings? g scope rest).map fun ts => t :: ts

end

def typeIn? (g : TypeGraph) (scope : Scope Declaration) (e : Node α) : Option TypeId :=
  (reading? g scope e).bind fun v => g.bound? v.symbol

theorem typeIn?_eq_some {e : Node α} {t : TypeId} :
    typeIn? g scope e = some t ↔ ∃ v, reading? g scope e = some v ∧ g.bound? v.symbol = some t :=
  Option.bind_eq_some_iff

theorem reading?_selection {member : String} :
    reading? g scope (.selection note target member) =
      (typeIn? g scope target).map (.ofMember g member) := by
  rw [reading?, typeIn?]

theorem reading?_call {arguments : List (Node α)} :
    reading? g scope (.call note target arguments) = (readings? g scope (target :: arguments)).map
      (.ofCall g (arguments.map Node.argumentName?)) := by
  rw [reading?, readings?]
  cases (reading? g scope target).bind fun v => g.bound? v.symbol with
  | none => rfl
  | some t => rw [Option.bind_some, Option.bind_some, Option.map_map]; rfl

theorem readings?_eq_some {es : List (Node α)} {ts : List TypeId} :
    readings? g scope es = some ts ↔ es.map (typeIn? g scope) = ts.map some := by
  induction es generalizing ts with
  | nil => cases ts <;> simp [readings?]
  | cons e es ih =>
    rw [readings?]
    change ((typeIn? g scope e).bind fun t => (readings? g scope es).map fun ts => t :: ts) = _ ↔ _
    rw [List.map_cons]
    cases typeIn? g scope e with
    | none => cases ts <;> simp
    | some t =>
      cases ts with
      | nil => simp
      | cons u us => simp [← ih, and_comm]

theorem readings?_eq (es : List (Node α)) : readings? g scope es =
    if (es.map (typeIn? g scope)).all Option.isSome then
      some ((es.map (typeIn? g scope)).filterMap id) else none := by
  induction es with
  | nil => rfl
  | cons e es ih =>
    rw [readings?, ih]
    change ((typeIn? g scope e).bind fun t => Option.map _ _) = _
    rw [List.map_cons, List.all_cons]
    cases typeIn? g scope e with
    | none => rfl
    | some t =>
      rw [Option.bind_some, Option.isSome_some, Bool.true_and]
      split <;> rfl

/-- Where nodes have the symbols of the verdicts about them, the verdicts can be read off the graph. -/
theorem reading?_eq_verdict? {s : State} {E : List Expr}
    (hE : ∀ e ∈ E, ∀ x ∈ e.operands, x ∈ E)
    (htyped : ∀ x ∈ E, s.typeOf? x.id = (s.verdict? x).map Verdict.symbol) (x : Expr) (hx : x ∈ E) :
    reading? s.graph s.scope x = s.verdict? x := by
  induction x using Tree.operands_induction with
  | h x ih =>
    have hreading : ∀ y ∈ x.operands, reading? s.graph s.scope y = s.verdict? y :=
      fun y hy => ih y hy (hE x hx y hy)
    have htype : ∀ y ∈ x.operands, typeIn? s.graph s.scope y = s.resolved? y.id := by
      intro y hy
      rw [typeIn?, hreading y hy, State.resolved?, htyped y (hE x hx y hy), Option.bind_map]
      rfl
    cases x with
    | selection note target member =>
      rw [reading?_selection, htype target List.mem_cons_self, State.verdict?]
    | call note target arguments =>
      have hslots : (target :: arguments).map (typeIn? s.graph s.scope) =
          (target :: arguments).map fun e => s.resolved? e.id := List.map_congr_left htype
      rw [reading?_call, readings?_eq, hslots]
      simp only [State.verdict?]
      split <;> rfl
    | namedArgument note name value =>
      have hvalue := List.mem_cons_self (a := value) (l := [])
      simp only [reading?, State.verdict?, hreading value hvalue, htyped value (hE _ hx value hvalue),
        Option.map_map]
      rfl
    | literal | ident | sequence | definition | typeLiteral | arrayType | referenceType
    | extension => simp only [reading?, State.verdict?]

end Binder.Inference
