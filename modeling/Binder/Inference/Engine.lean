import Binder.Inference.Overload
import Binder.Inference.Task
import Binder.Prelude
import Binder.Unify

/-! Type inference. Every node is given a type symbol at most once. Whoever needs a type that is not
known yet waits for it, and goes on as soon as it is. Tasks are worked off depth first, and each
step leaves less to do than there was before it. -/
namespace Binder.Inference

open Binder.Tree (Expr Mark NodeId)

/-- A call that gathers the types of its target and its arguments. -/
structure Gathering where
  call : Mark
  /-- the names of the arguments -/
  names : List (Option String)
  /-- the types of the target and of the arguments, as far as they have come in -/
  slots : List (Option TypeId)
  /-- how many of them are still missing -/
  missing : Nat
  deriving Repr

/-- A call of which nothing has come in yet. -/
def Gathering.start (call : Mark) (arguments : List Expr) : Gathering where
  call := call
  names := arguments.map Tree.Node.argumentName?
  slots := List.replicate (arguments.length + 1) none
  missing := arguments.length + 1

structure State where
  graph : TypeGraph
  groups : Groups
  /-- what names mean -/
  scope : Scope Declaration
  /-- the type symbols of nodes, the last one given first -/
  typed : List (NodeId × SymbolId)
  /-- what waits for a node to be typed, in the order of arrival -/
  waiting : List (NodeId × WhenTyped)
  /-- what waits for a symbol to be bound, in the order of arrival -/
  blocked : List (SymbolId × Span × WhenBound)
  calls : Array Gathering
  diagnostics : List Diagnostic
  /-- what observers have noted -/
  journal : List (Option String)

namespace State

def initial (graph : TypeGraph) (scope : Scope Declaration) : State :=
  ⟨graph, .empty, scope, [], [], [], #[], [], []⟩

def typeOf? (s : State) (node : NodeId) : Option SymbolId := s.typed.lookup node

def report (s : State) (span : Span) (fault : Fault) : State :=
  { s with diagnostics := s.diagnostics ++ [⟨span, fault⟩] }

/-- Reports a fault at a node, which is then given the error type. -/
def reject (s : State) (node : Mark) (fault : Fault) : List Task × State :=
  ([.record node.id Prelude.error], s.report node.span fault)

/-- Gives a node its symbol and lets go what waited for it. -/
def record (s : State) (node : NodeId) (symbol : SymbolId) : Except Misuse (List Task × State) :=
  if (s.typeOf? node).isSome then .error (.nodeRetyped node)
  else
    let due := s.waiting.filter fun w => w.1 = node
    .ok (due.map fun w => .typed w.2 symbol,
      { s with
        typed := (node, symbol) :: s.typed
        waiting := s.waiting.filter fun w => !decide (w.1 = node) })

def pend (s : State) (node : NodeId) (next : WhenTyped) : List Task × State :=
  match s.typeOf? node with
  | some symbol => ([.typed next symbol], s)
  | none => ([], { s with waiting := s.waiting ++ [(node, next)] })

def pendType (s : State) (symbol : SymbolId) (origin : Span) (next : WhenBound) :
    List Task × State :=
  match s.graph.bound? symbol with
  | some t => ([.bound next t], s)
  | none => ([], { s with blocked := s.blocked ++ [(symbol, origin, next)] })

/-- Lets go what waited for a symbol that is bound by now. -/
def wake (s : State) (symbol : SymbolId) : List Task × State :=
  match s.graph.bound? symbol with
  | some t =>
      let due := s.blocked.filter fun w => w.1 = symbol
      (due.map fun w => .bound w.2.2 t,
        { s with blocked := s.blocked.filter fun w => !decide (w.1 = symbol) })
  | none => ([], s)

/-- Wakes whatever was bound since the last time, until nothing new is. -/
def settle (s : State) : List Task × State :=
  if s.groups.settled.isEmpty then ([], s)
  else
    (s.groups.settled.map .wake ++ [.settle],
      { s with groups := { s.groups with settled := [] } })

/-- Unifies two symbols; what that binds is still to be settled. -/
def unify (s : State) (t v : SymbolId) : Except Misuse (Bool × State) :=
  match s.groups.unify s.graph t v with
  | .ok (unified, graph, groups) => .ok (unified, { s with graph := graph, groups := groups })
  | .error e => .error e

/-- Takes note of a symbol that was bound by other means. -/
def settleBound (s : State) (symbol : SymbolId) : State :=
  let (graph, groups) := s.groups.settleBound s.graph symbol
  { s with graph := graph, groups := groups }

/-- The tasks that infer nodes one by one and hand their types to a call. -/
def gather (call : Nat) : (slot : Nat) → List Expr → List Task
  | _, [] => []
  | slot, e :: rest =>
      .infer e :: .pend e.id (.resolve e.span (.deliver call slot)) :: gather call (slot + 1) rest

def infer (s : State) : Expr → List Task × State
  | .literal node value => ([.record node.id (Prelude.literalType value)], s)
  | .ident node name =>
      match s.scope.find? name with
      | some (.value member) => ([.record node.id member.type], s)
      | some (.type _) => s.reject node .expectedValue
      | none => s.reject node .symbolNotFound
  | .selection node target member =>
      ([.infer target, .pend target.id (.resolve target.span (.select node member))], s)
  | .call node target arguments =>
      (gather s.calls.size 0 (target :: arguments),
        { s with calls := s.calls.push (.start node arguments) })
  | .namedArgument node _ value => ([.infer value, .pend value.id (.copy node.id)], s)
  | e => s.reject e.note .unknownNode

/-- Picks the member that a node selects from the type of its target. -/
def select (s : State) (node : Mark) (member : String) (t : TypeId) : List Task × State :=
  if s.graph.isErrorType t then ([.record node.id Prelude.error], s)
  else match (s.graph.def? t).bind fun d => d.findMember? member with
    | some m => ([.record node.id m.type], s)
    | none => s.reject node .memberNotFound

/-- Resolves a call whose types have all come in. What involves the error type is passed over in
silence. -/
def resolve (s : State) (call : Gathering) (types : List TypeId) : List Task × State :=
  match types with
  | [] => ([.record call.call.id Prelude.error], s)
  | target :: arguments =>
      if types.any s.graph.isErrorType then ([.record call.call.id Prelude.error], s)
      else
        let signatures := ((s.graph.def? target).map TypeDef.signatures).getD []
        if signatures.isEmpty then s.reject call.call .notCallable
        else
          let given := call.names.zip arguments
          let named := given.filterMap fun a => a.1.map fun name => (name, a.2)
          let positional := given.filterMap fun a => if a.1.isNone then some a.2 else none
          match Overload.select? s.graph signatures named positional with
          | some signature => ([.record call.call.id signature.result], s)
          | none => s.reject call.call .noMatchingSignature

/-- Files the type of a target or argument; the last one to come in resolves the call. -/
def deliver (s : State) (call slot : Nat) (t : TypeId) : List Task × State :=
  match s.calls[call]? with
  | none => ([], s)
  | some gathering =>
      let gathering := { gathering with
        slots := gathering.slots.set slot (some t), missing := gathering.missing - 1 }
      let s := { s with calls := s.calls.setIfInBounds call gathering }
      if gathering.missing = 0 then s.resolve gathering (gathering.slots.filterMap id) else ([], s)

/-- Reports two types that should have been the same, unless one of them is the error type. -/
def mismatch (s : State) (expected found : SymbolId) (origin : Span) : State :=
  if s.graph.isError found || s.graph.isError expected then s
  else s.report origin (.typeMismatch (s.graph.symbolText expected) (s.graph.symbolText found))

def note (s : State) (line : Option String) : State := { s with journal := s.journal ++ [line] }

def onTyped (s : State) (next : WhenTyped) (symbol : SymbolId) :
    Except Misuse (List Task × State) :=
  match next with
  | .resolve origin next => .ok ([.pendType symbol origin next], s)
  | .copy node => .ok ([.record node symbol], s)
  | .initialise value origin =>
      match s.unify value symbol with
      | .ok (true, s) => .ok ([.settle], s)
      | .ok (false, s) => .ok ([.settle, .mismatch value symbol origin], s)
      | .error e => .error e
  | .observe tag acts =>
      .ok (acts.map (.act · symbol), s.note ((s.graph.symbolText symbol).map (tag ++ ": " ++ ·)))

def onBound (s : State) (next : WhenBound) (t : TypeId) : List Task × State :=
  match next with
  | .select node member => s.select node member t
  | .deliver call slot => s.deliver call slot t
  | .compare expected origin =>
      let found := s.graph.symbolOf t
      ([], if s.graph.sameType expected found then s else s.mismatch expected found origin)
  | .observe tag acts =>
      (acts.map (.act · (s.graph.symbolOf t)), s.note ((s.graph.typeText t).map (tag ++ ": " ++ ·)))

def perform (s : State) (a : Act) (symbol : SymbolId) : Except Misuse (List Task × State) :=
  match a with
  | .infer e => .ok ([.infer e], s)
  | .record node => .ok ([.record node symbol], s)
  | .pend node next => .ok ([.pend node next], s)
  | .pendType symbol origin next => .ok ([.pendType symbol origin next], s)
  | .unify other =>
      match s.unify other symbol with
      | .ok (unified, s) => .ok ([.settle, .note ("unified " ++ Text.boolean unified)], s)
      | .error e => .error e
  | .bound symbol => .ok ([.wake symbol, .settle], s.settleBound symbol)

/-- Does one task; the tasks that come of it are to be done before any other. -/
def step (s : State) : Task → Except Misuse (List Task × State)
  | .infer e => .ok (s.infer e)
  | .record node symbol => s.record node symbol
  | .pend node next => .ok (s.pend node next)
  | .pendType symbol origin next => .ok (s.pendType symbol origin next)
  | .typed next symbol => s.onTyped next symbol
  | .bound next t => .ok (s.onBound next t)
  | .wake symbol => .ok (s.wake symbol)
  | .settle => .ok s.settle
  | .mismatch expected found origin => .ok ([], s.mismatch expected found origin)
  | .note line => .ok ([], s.note (some line))
  | .act a symbol => s.perform a symbol

/-- A bound on the tasks that can still come of what waits and of symbols that get bound. -/
def load (s : State) : Nat :=
  total (fun w => w.2.weight) s.waiting + total (fun w => w.2.2.weight) s.blocked +
    3 * s.graph.unboundCount + 2 * s.groups.settled.length

end State
end Binder.Inference
