import Binder.Proofs.Module.Concluding

/-! A build that can be evaluated. Scopes are sorted by merging, which does not unfold; inserting one
entry after the other gives the same tables and does. -/
namespace Binder

open Binder.Tree (Expr)

namespace Scope

variable {α : Type} [Named α] {entries sorted : List α}

/-- The entries sorted by name, one after the other as long as no name occurs twice. -/
def inserted (entries : List α) : List α :=
  if (entries.insertionSort fun a b => Named.name a ≤ Named.name b).Pairwise
      fun a b => Named.name a < Named.name b
  then entries.insertionSort fun a b => Named.name a ≤ Named.name b
  else arrange entries

theorem arrange_eq_inserted (entries : List α) : arrange entries = inserted entries := by
  unfold inserted
  split
  next hsorted => exact arrange_eq_of_perm (List.perm_insertionSort _ entries).symm hsorted
  next => rfl

def insertAll (entries : List α) : Scope α :=
  if entries.isEmpty then empty else table (inserted entries)

theorem ofList_eq_insertAll (entries : List α) : ofList entries = insertAll entries := by
  rw [ofList, insertAll, arrange_eq_inserted]

end Scope

/-- The context at the outset, with a scope that is sorted by insertion. -/
def Context.outset (name : String) : Context :=
  { Context.initial name with
    scope := .withBase (.insertAll Prelude.declarations)
    inference := .initial Prelude.graph (.insertAll Prelude.declarations) }

theorem Context.initial_eq_outset (name : String) : initial name = outset name := by
  simp only [outset, initial, Prelude.scope, Scope.ofList_eq_insertAll]

namespace Build

def freezeScope : Build Unit :=
  modify fun c =>
    let root : Scope Declaration := .merge [.insertAll c.scope.live, c.scope.base]
    { c with
      scope := .withBase c.scope.base
      root := some root
      inference := { c.inference with scope := root } }

/-- The passes of a build, with scopes that are sorted by insertion. -/
def evaluate (root : Expr) : Build TypeId := do
  enter root
  let definitions := (← get).definitions
  modify fun c => { c with definitions := [] }
  definitions.forM declareValue
  freezeScope
  makeTypes
  inferAll
  conclude

theorem declareValues_eq : declareValues = (do
    let definitions := (← get).definitions
    modify fun c => { c with definitions := [] }
    definitions.forM declareValue
    freezeScope) := by
  unfold declareValues freezeScope
  simp only [ScopeBuilder.freeze, Scope.ofList_eq_insertAll]

theorem build_eq_evaluate (name : String) (root : Expr) :
    (Context.initial name).build root = (Context.outset name).after (evaluate root) := by
  have hbuild : build root (.initial name) = evaluate root (.initial name) := by
    rw [build_of_unbound rfl root, complete, furnish, declareValues_eq, evaluate]
    simp only [bind_assoc]
  rw [Context.build, Context.after, hbuild, Context.initial_eq_outset, Context.after]

end Build
end Binder
