import Binder.Scope.Basic
import Binder.Tree.Basic

/-! Type symbols and types. A symbol stands for a type that may not be known yet and is bound at
most once; a type refers to other types through their symbols, so that types form a graph. -/
namespace Binder

structure SymbolId where
  index : Nat
  deriving DecidableEq, Repr, Inhabited

def SymbolId.text (s : SymbolId) : String := "?" ++ Nat.repr s.index

structure TypeId where
  index : Nat
  deriving DecidableEq, Repr, Inhabited

/-- What a member is: a value of a module, or a field that may or may not be assigned. -/
inductive MemberKind where
  | value
  | field (mutable : Bool)
  deriving DecidableEq, Repr

structure Member where
  name : String
  type : SymbolId
  kind : MemberKind
  deriving DecidableEq, Repr

instance : Named Member := ⟨Member.name⟩

def Member.isMutable (m : Member) : Bool := m.kind = .field true

/-- A parameter of a signature. A call may leave it out when it has a fallback. -/
structure Parameter where
  name : String
  type : SymbolId
  fallback : Option Tree.Expr := none

/-- One way to call a type. -/
structure Signature where
  receiver : Option SymbolId
  parameters : List Parameter
  result : SymbolId

/-- A type symbol under the name that a scope knows it by. -/
structure TypeName where
  name : String
  symbol : SymbolId
  deriving DecidableEq, Repr, Inhabited

instance : Named TypeName := ⟨TypeName.name⟩

/-- An entry of a module's scope, in which types and values share one space of names. -/
inductive Declaration where
  | type (entry : TypeName)
  | value (member : Member)
  deriving DecidableEq, Repr

def Declaration.name : Declaration → String
  | .type entry => entry.name
  | .value member => member.name

instance : Named Declaration := ⟨Declaration.name⟩

inductive TypeKind where
  | record
  | array (elements : SymbolId) (size : Option Nat)
  | reference (referent : SymbolId)
  | module
  | error
  deriving DecidableEq, Repr

structure TypeDef where
  symbol : SymbolId
  kind : TypeKind
  members : List Member := []
  memberScope : Scope Member := .ofList members
  typeScope : Scope TypeName := .empty
  signatures : List Signature := []
  container : Option SymbolId := none

namespace TypeDef

def isError (d : TypeDef) : Bool := d.kind = .error

def findMember? (d : TypeDef) (name : String) : Option Member := d.memberScope.find? name

def findType? (d : TypeDef) (name : String) : Option SymbolId :=
  (d.typeScope.find? name).map TypeName.symbol

end TypeDef

structure Symbol where
  name : String
  type : Option TypeId
  deriving DecidableEq, Repr, Inhabited

structure TypeGraph where
  symbols : Array Symbol
  types : Array TypeDef

namespace TypeGraph

variable (g : TypeGraph)

def nameOf (s : SymbolId) : String := (g.symbols[s.index]?.map Symbol.name).getD ""

/-- The type that a symbol is bound to. -/
def bound? (s : SymbolId) : Option TypeId := g.symbols[s.index]?.bind Symbol.type

def isBound (s : SymbolId) : Bool := (g.bound? s).isSome

/-- Whether a symbol exists and is still to be bound. -/
def isUnbound (s : SymbolId) : Bool :=
  match g.symbols[s.index]? with
  | some symbol => symbol.type.isNone
  | none => false

def def? (t : TypeId) : Option TypeDef := g.types[t.index]?

def kind? (t : TypeId) : Option TypeKind := (g.def? t).map TypeDef.kind

/-- The own symbol of a type. -/
def symbolOf (t : TypeId) : SymbolId := ((g.def? t).map TypeDef.symbol).getD default

/-- The definition of the type that a symbol is bound to. -/
def typeOf? (s : SymbolId) : Option TypeDef := (g.bound? s).bind g.def?

def isErrorType (t : TypeId) : Bool := ((g.def? t).map TypeDef.isError).getD false

def isError (s : SymbolId) : Bool := ((g.typeOf? s).map TypeDef.isError).getD false

def isAnonymous (s : SymbolId) : Bool := (g.nameOf s).isEmpty

def newSymbol (name : String) : SymbolId × TypeGraph :=
  (⟨g.symbols.size⟩, { g with symbols := g.symbols.push ⟨name, none⟩ })

/-- Binds a symbol, whether or not it was bound before. -/
def assign (s : SymbolId) (t : TypeId) : TypeGraph :=
  if h : s.index < g.symbols.size then
    { g with symbols := g.symbols.set s.index { g.symbols[s.index] with type := some t } }
  else g

/-- Adds a type, to which its own symbol is bound if it is still unbound. -/
def newType (d : TypeDef) : TypeId × TypeGraph :=
  let t : TypeId := ⟨g.types.size⟩
  let g' := { g with types := g.types.push d }
  (t, if g.isUnbound d.symbol then g'.assign d.symbol t else g')

/-- A type of its own kind with a fresh anonymous symbol. -/
def newAnonymous (kind : TypeKind) : SymbolId × TypeGraph :=
  let (s, g) := g.newSymbol ""
  (s, (g.newType { symbol := s, kind := kind }).2)

/-- A type without members, bound to a fresh symbol of the given name. -/
def newNamed (name : String) (kind : TypeKind) : SymbolId × TypeGraph :=
  let (s, g) := g.newSymbol name
  (s, (g.newType { symbol := s, kind := kind }).2)

end TypeGraph
end Binder
