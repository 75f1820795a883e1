import Binder.TypeGraph.Same

/-! Choosing the overload of a call. Named arguments go to the parameters of their name; the other
parameters take the positional arguments in order, or else their fallback. -/
namespace Binder.Overload

variable (g : TypeGraph)

/-- The place of the last parameter of a name. -/
def place? (name : String) : List Parameter → Option Nat
  | [] => none
  | p :: rest =>
      match place? name rest with
      | some i => some (i + 1)
      | none => if p.name = name then some 0 else none

/-- The places taken by named arguments, each by one argument of the parameter's type; `used` are
the places taken before. -/
def placeNamed (parameters : List Parameter) :
    List (String × TypeId) → (used : List Nat) → Option (List Nat)
  | [], used => some used
  | (name, t) :: rest, used =>
      match place? name parameters with
      | none => none
      | some i =>
          match parameters[i]? with
          | none => none
          | some p =>
              if i ∉ used ∧ g.sameType p.type (g.symbolOf t) then
                placeNamed parameters rest (i :: used)
              else none

/-- Whether parameters can take the positional arguments in order, none of which may be left over. -/
def takes : List Parameter → List TypeId → Bool
  | [], [] => true
  | [], _ :: _ => false
  | p :: rest, [] => p.fallback.isSome && takes rest []
  | p :: rest, t :: ts => g.sameType p.type (g.symbolOf t) && takes rest ts

/-- The parameters at the places that are not used. -/
def unused (parameters : List Parameter) (used : List Nat) : List Parameter :=
  (parameters.zipIdx.filter fun p => p.2 ∉ used).map Prod.fst

def accepts (s : Signature) (named : List (String × TypeId)) (positional : List TypeId) : Bool :=
  match placeNamed g s.parameters named [] with
  | some used => takes g (unused s.parameters used) positional
  | none => false

/-- The first signature that accepts the arguments. -/
def select? (signatures : List Signature) (named : List (String × TypeId))
    (positional : List TypeId) : Option Signature :=
  signatures.find? fun s => accepts g s named positional

end Binder.Overload
