/-! Read-only scopes. A scope is empty, a table sorted by name, or several tables of which the first one
that knows a name decides what it means. -/
namespace Binder

/-- Whatever can be entered into a scope under a name. -/
class Named (α : Type) where
  name : α → String

/-- The entries of a list whose name has not occurred before. -/
def firsts {α : Type} [Named α] : List α → List α
  | [] => []
  | a :: rest => a :: (firsts rest).filter fun b => Named.name b ≠ Named.name a

/-- The first entry of a list under a name. -/
def lookup? {α : Type} [Named α] (name : String) (entries : List α) : Option α :=
  entries.find? fun a => Named.name a = name

/-- Only tables are merged, and never fewer than two; this is so by the way scopes are made. -/
inductive Scope (α : Type) where
  | empty
  | table (entries : List α)
  | merged (parts : List (Scope α))
  deriving Repr, Inhabited

namespace Scope

variable {α : Type} [Named α]

/-- The entries sorted by name. Of several entries with one name the first is kept. -/
def arrange (entries : List α) : List α :=
  firsts (entries.mergeSort fun a b => decide (Named.name a ≤ Named.name b))

/-- A scope of a single table, or the empty one when there are no entries. -/
def ofList (entries : List α) : Scope α :=
  if entries.isEmpty then empty else table (arrange entries)

/-- What a scope adds to others that it is merged with. -/
def parts : Scope α → List (Scope α)
  | empty => []
  | table entries => [table entries]
  | merged inner => inner

/-- Scopes one after the other; a name means what it means in the first scope that knows it. -/
def merge (scopes : List (Scope α)) : Scope α :=
  match scopes.flatMap parts with
  | [] => empty
  | [part] => part
  | flat => merged flat

mutual

def find? : Scope α → String → Option α
  | empty, _ => none
  | table entries, name => lookup? name entries
  | merged parts, name => findFirst? parts name

def findFirst? : List (Scope α) → String → Option α
  | [], _ => none
  | part :: rest, name => (part.find? name).or (findFirst? rest name)

end

def contains (s : Scope α) (name : String) : Bool := (s.find? name).isSome

def isEmpty : Scope α → Bool
  | empty => true
  | _ => false

mutual

/-- Every visible entry, without the ones that are hidden by an earlier table. -/
def entries : Scope α → List α
  | empty => []
  | table entries => entries
  | merged parts => firsts (allEntries parts)

def allEntries : List (Scope α) → List α
  | [] => []
  | part :: rest => part.entries ++ allEntries rest

end

def names (s : Scope α) : List String := s.entries.map Named.name

end Scope
end Binder
