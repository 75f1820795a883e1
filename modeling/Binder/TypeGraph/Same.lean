import Binder.TypeGraph.Basic

/-! When two symbols denote the same type. Types are identified by what they are, except that
arrays and references are compared by their parts. -/
namespace Binder.TypeGraph

variable (g : TypeGraph)

/-- Compares two symbols down to at most `depth` levels of arrays and references. -/
def sameWithin : (depth : Nat) → SymbolId → SymbolId → Bool
  | 0, _, _ => false
  | depth + 1, a, b =>
      if a = b then true
      else match g.bound? a, g.bound? b with
        | some t, some v =>
            if t = v then true
            else match g.kind? t, g.kind? v with
              | some (.array elements size), some (.array elements' size') =>
                  size = size' && sameWithin depth elements elements'
              | some (.reference referent), some (.reference referent') =>
                  sameWithin depth referent referent'
              | _, _ => false
        | _, _ => false

/-- Arrays and references that do not contain themselves are never nested deeper than this. -/
def nestingDepth : Nat := g.types.size + 1

def sameType (a b : SymbolId) : Bool := g.sameWithin g.nestingDepth a b

end Binder.TypeGraph
