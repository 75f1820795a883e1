import Binder.Constant.Fold
import Binder.Inference.Run
import Binder.Module.TypeBuilder

/-! The state of binding one module, and the operations on it that the passes are made of. -/
namespace Binder

open Binder.Tree (Expr Mark)

inductive Stage where
  | unbound | entered | built
  deriving DecidableEq, Repr

/-- A type that a top-level definition declares. -/
structure DeclaredType where
  entry : TypeName
  members : List (Tree.Member Mark)

/-- A top-level `let` or `var` that declares no type. -/
structure Definition where
  node : Mark
  mutable : Bool
  name : String
  ascription : Option Expr
  value : Option Expr

structure Extension where
  target : Expr
  members : List (Tree.Member Mark)

/-- A definition that was accepted, with the member of the module that it defines. -/
structure ModuleValue where
  definition : Definition
  member : Member

structure Context where
  moduleName : String
  stage : Stage
  scope : ScopeBuilder Declaration
  /-- the scope of the module, frozen once its values are declared -/
  root : Option (Scope Declaration)
  declared : List DeclaredType
  definitions : List Definition
  extensions : List Extension
  expressions : List Expr
  builders : Array TypeBuilder
  /-- fallbacks of parameters with the symbols of the types that they should have -/
  fallbacks : List (Expr × SymbolId)
  values : List ModuleValue
  constants : List (String × Constant)
  inference : Inference.State
  /-- faults found while folding constants -/
  foldingFaults : List Diagnostic
  diagnostics : List Diagnostic
  module : Option TypeId

namespace Context

def initial (moduleName : String) : Context where
  moduleName := moduleName
  stage := .unbound
  scope := .withBase Prelude.scope
  root := none
  declared := []
  definitions := []
  extensions := []
  expressions := []
  builders := #[]
  fallbacks := []
  values := []
  constants := []
  inference := .initial Prelude.graph Prelude.scope
  foldingFaults := []
  diagnostics := []
  module := none

def graph (c : Context) : TypeGraph := c.inference.graph

/-- The scope of the module, which is that of the prelude until the values are declared. -/
def rootScope (c : Context) : Scope Declaration := c.root.getD Prelude.scope

/-- What a name means at the top level. -/
def find? (c : Context) (name : String) : Option Declaration :=
  match c.root with
  | some root => root.find? name
  | none => c.scope.find? name

def constant? (c : Context) (name : String) : Option Constant := c.constants.lookup name

/-- The builder of a symbol. -/
def builderOf? (c : Context) (s : SymbolId) : Option BuilderId :=
  (c.builders.findIdx? fun b => b.symbol = s).map BuilderId.mk

/-- The builders around a place, the innermost first. -/
def around (c : Context) (scope : Option BuilderId) : List BuilderId :=
  match scope with
  | none => []
  | some id => id :: ((c.builders[id.index]?).map TypeBuilder.enclosing).getD []

/-- A nested type that is visible from within a builder. -/
def findEnclosed? (c : Context) (scope : Option BuilderId) (name : String) : Option SymbolId :=
  (c.around scope).findSome? fun id => (c.builders[id.index]?).bind fun b => b.findType? name

/-- A nested type of a given type: one that is built answers through its frozen scope, one under
construction through its builder. -/
def findNested? (c : Context) (target : SymbolId) (name : String) : Option SymbolId :=
  match c.graph.typeOf? target with
  | some d => d.findType? name
  | none =>
      (c.builderOf? target).bind fun id => (c.builders[id.index]?).bind fun b => b.findType? name

end Context

/-- A pass over a module. It may end in a misuse, which keeps what was done before. -/
abbrev Build := EStateM Misuse Context

namespace Build

def report (span : Span) (fault : Fault) : Build Unit :=
  modify fun c => { c with diagnostics := c.diagnostics ++ [⟨span, fault⟩] }

/-- Reports a fault; the type that was looked for is then the error type. -/
def reject (span : Span) (fault : Fault) : Build SymbolId := do
  report span fault
  return Prelude.error

/-- Runs an operation on the graph of types. -/
def withGraph {α : Type} (f : TypeGraph → α × TypeGraph) : Build α :=
  modifyGet fun c =>
    let (a, g) := f c.inference.graph
    (a, { c with inference := { c.inference with graph := g } })

/-- Runs an operation of type inference. -/
def withInference {α : Type} (f : Inference.State → Inference.Outcome α) : Build α := fun c =>
  match f c.inference with
  | (s, .ok a) => .ok a { c with inference := s }
  | (s, .error e) => .error e { c with inference := s }

def newSymbol (name : String) : Build SymbolId := withGraph fun g => g.newSymbol name

def newAnonymous (kind : TypeKind) : Build SymbolId := withGraph fun g => g.newAnonymous kind

/-- Enters a declaration into the scope of the module unless its name is taken. -/
def enterScope (d : Declaration) : Build Bool :=
  modifyGet fun c =>
    let ((_, inserted), scope) := c.scope.enter d
    (inserted, { c with scope := scope })

/-- Opens a builder for the type of a symbol. -/
def newBuilder (symbol : SymbolId) (container : Option SymbolId) (scope : Option BuilderId) :
    Build BuilderId :=
  modifyGet fun c =>
    let b : TypeBuilder :=
      { symbol := symbol, container := container, enclosing := c.around scope }
    (⟨c.builders.size⟩, { c with builders := c.builders.push b })

/-- Runs an operation on one builder. -/
def withBuilder {α : Type} (id : BuilderId) (missing : α) (f : TypeBuilder → α × TypeBuilder) :
    Build α :=
  modifyGet fun c =>
    match c.builders[id.index]? with
    | some b =>
        let (a, b) := f b
        (a, { c with builders := c.builders.setIfInBounds id.index b })
    | none => (missing, c)

/-- Folds an expression and keeps the faults for later. -/
def fold (e : Expr) : Build Constant :=
  modifyGet fun c =>
    let (constant, faults) := Constant.eval e
    (constant, { c with foldingFaults := c.foldingFaults ++ faults })

end Build
end Binder
