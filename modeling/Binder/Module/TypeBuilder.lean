import Binder.Scope.Builder
import Binder.TypeGraph.Basic

/-! Types under construction: the members, signatures and nested types of one type literal and of
its extensions. -/
namespace Binder

/-- The place of a builder in the module that owns it. -/
structure BuilderId where
  index : Nat
  deriving DecidableEq, Repr, Inhabited

structure TypeBuilder where
  symbol : SymbolId
  kind : TypeKind := .record
  container : Option SymbolId := none
  /-- the builders around this one, the innermost first -/
  enclosing : List BuilderId := []
  members : List Member := []
  memberScope : ScopeBuilder Member := .empty
  typeScope : ScopeBuilder TypeName := .empty
  signatures : List Signature := []
  /-- the builders of nested types -/
  nested : List (SymbolId × BuilderId) := []

namespace TypeBuilder

/-- Adds a member unless its name is taken, and tells whether it did. -/
def addMember (b : TypeBuilder) (m : Member) : Bool × TypeBuilder :=
  let ((_, inserted), scope) := b.memberScope.enter m
  if inserted then (true, { b with members := b.members ++ [m], memberScope := scope })
  else (false, b)

def addSignature (b : TypeBuilder) (s : Signature) : TypeBuilder :=
  { b with signatures := b.signatures ++ [s] }

/-- Adds the name of a nested type unless it is taken, and tells whether it did. -/
def addType (b : TypeBuilder) (entry : TypeName) : Bool × TypeBuilder :=
  let ((_, inserted), scope) := b.typeScope.enter entry
  (inserted, { b with typeScope := scope })

def findMember? (b : TypeBuilder) (name : String) : Option Member := b.memberScope.find? name

def findType? (b : TypeBuilder) (name : String) : Option SymbolId :=
  (b.typeScope.find? name).map TypeName.symbol

def addNested (b : TypeBuilder) (s : SymbolId) (id : BuilderId) : TypeBuilder :=
  { b with nested := b.nested ++ [(s, id)] }

def findNested? (b : TypeBuilder) (s : SymbolId) : Option BuilderId := b.nested.lookup s

/-- Freezes the scopes and makes the type, to which the symbol is bound unless it was before. What
went into the type is gone from the builder. -/
def build (b : TypeBuilder) (g : TypeGraph) : TypeId × TypeGraph × TypeBuilder :=
  let (memberScope, members) := b.memberScope.freeze
  let (typeScope, types) := b.typeScope.freeze
  let (t, g) := g.newType
    { symbol := b.symbol, kind := b.kind, members := b.members, memberScope := memberScope,
      typeScope := typeScope, signatures := b.signatures, container := b.container }
  (t, g, { b with members := [], memberScope := members, typeScope := types, signatures := [] })

end TypeBuilder
end Binder
