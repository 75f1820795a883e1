import Binder.TypeGraph.Basic

/-! The text of symbols and types. A named symbol is shown by its name behind the names of the
types that contain it; a type without a name is spelled out. A type without a name that reaches
itself would be spelled out for ever and has no text. -/
namespace Binder.TypeGraph

variable (g : TypeGraph)

/-- The text of a signature, given the texts of its parameters and of its result. -/
def signatureFrame (parameters : List String) (result : String) : String :=
  if parameters.isEmpty then "\x7b-> " ++ result ++ "\x7d"
  else "\x7b" ++ ", ".intercalate parameters ++ " -> " ++ result ++ "\x7d"

mutual

/-- The text of a symbol that can be told within `depth` steps from symbols to types and back. -/
def symbolText? : (depth : Nat) → SymbolId → Option String
  | 0, _ => none
  | depth + 1, s =>
      if !g.isAnonymous s then
        match (g.typeOf? s).bind TypeDef.container with
        | some container => (symbolText? depth container).map (· ++ "." ++ g.nameOf s)
        | none => some (g.nameOf s)
      else match g.bound? s with
        | some t => typeText? depth t
        | none => some s.text

def typeText? : (depth : Nat) → TypeId → Option String
  | 0, _ => none
  | depth + 1, t =>
      match g.def? t with
      | none => none
      | some d =>
          if !g.isAnonymous d.symbol then symbolText? depth d.symbol
          else match d.kind with
            | .array elements size =>
                (symbolText? depth elements).map
                  (· ++ "[" ++ (size.map Nat.repr).getD "" ++ "]")
            | .reference referent => (symbolText? depth referent).map ("*" ++ ·)
            | .record | .module | .error => do
                let members ← d.members.mapM fun m =>
                  (symbolText? depth m.type).map (m.name ++ ": " ++ ·)
                let signatures ← d.signatures.mapM fun s => do
                  let parameters ← s.parameters.mapM fun p =>
                    (symbolText? depth p.type).map (p.name ++ ": " ++ ·)
                  return signatureFrame parameters (← symbolText? depth s.result)
                return "<" ++ ", ".intercalate (members ++ signatures) ++ ">"

end

/-- A text that can be told at all never returns to the same symbol or type on its way. -/
def textDepth : Nat := g.symbols.size + g.types.size + 1

/-- The text of a symbol, if it has an end. -/
def symbolText (s : SymbolId) : Option String := g.symbolText? g.textDepth s

def typeText (t : TypeId) : Option String := g.typeText? g.textDepth t

def memberText (m : Member) : Option String := (g.symbolText m.type).map (m.name ++ ": " ++ ·)

def signatureText (s : Signature) : Option String := do
  let parameters ← s.parameters.mapM fun p => (g.symbolText p.type).map (p.name ++ ": " ++ ·)
  return signatureFrame parameters (← g.symbolText s.result)

end Binder.TypeGraph
