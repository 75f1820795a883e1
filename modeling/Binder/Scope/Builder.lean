import Binder.Scope.Basic

/-! Scopes under construction: a live table in front of a frozen base. -/
namespace Binder

/-- The entries of the live table have distinct names and stand in the order of their entry. -/
structure ScopeBuilder (α : Type) where
  live : List α
  base : Scope α
  deriving Repr, Inhabited

namespace ScopeBuilder

variable {α : Type} [Named α]

/-- Falls back to `base` for names that have not been entered; entering one of them hides it. -/
def withBase (base : Scope α) : ScopeBuilder α := ⟨[], base⟩

def empty : ScopeBuilder α := withBase .empty

/-- Goes on from a scope: a single table becomes live again, anything else remains the base. -/
def ofScope (base : Scope α) : ScopeBuilder α :=
  match base with
  | .table entries => ⟨entries, .empty⟩
  | _ => withBase base

/-- The entry that is now registered under the name, whether it is the given one, and the builder
after that. Only the live table counts as taken. -/
def enter (b : ScopeBuilder α) (a : α) : (α × Bool) × ScopeBuilder α :=
  match lookup? (Named.name a) b.live with
  | some old => ((old, false), b)
  | none => ((a, true), { b with live := b.live ++ [a] })

/-- Registers an entry whether or not its name is taken. -/
def reenter (b : ScopeBuilder α) (a : α) : ScopeBuilder α :=
  match lookup? (Named.name a) b.live with
  | some _ => { b with live := b.live.map fun c => if Named.name c = Named.name a then a else c }
  | none => { b with live := b.live ++ [a] }

def find? (b : ScopeBuilder α) (name : String) : Option α :=
  (lookup? name b.live).or (b.base.find? name)

def contains (b : ScopeBuilder α) (name : String) : Bool := (b.find? name).isSome

/-- Freezes the live table in front of the base and leaves the builder with the base alone. -/
def freeze (b : ScopeBuilder α) : Scope α × ScopeBuilder α :=
  (.merge [.ofList b.live, b.base], withBase b.base)

end ScopeBuilder
end Binder
