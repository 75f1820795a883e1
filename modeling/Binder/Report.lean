import Binder.Document.Lower
import Binder.Json.Writer
import Binder.Module.Bind

/-! The summary of a bound module, as lines of text or as JSON. -/
namespace Binder

namespace Report

structure TypeEntry where
  name : Option String
  members : List (Option String)
  signatures : List (Option String)
  deriving DecidableEq, Repr

structure ValueEntry where
  name : String
  type : Option String
  mutable : Bool
  constant : Option String
  deriving DecidableEq, Repr

structure DiagnosticEntry where
  message : Option String
  line : Nat
  character : Nat
  deriving DecidableEq, Repr

end Report

/-- The summary of a module. A text in it is missing if it would have no end. -/
structure Report where
  module : Option String
  types : List Report.TypeEntry
  values : List Report.ValueEntry
  diagnostics : List Report.DiagnosticEntry
  deriving DecidableEq, Repr

namespace Report

/-- A type and the types nested in it down to `depth` levels, each before those within it. -/
def typeEntries (g : TypeGraph) : (depth : Nat) → SymbolId → List TypeEntry
  | 0, _ => []
  | depth + 1, s =>
      match g.typeOf? s with
      | none => []
      | some d =>
          ⟨g.symbolText s, d.members.map g.memberText, d.signatures.map g.signatureText⟩ ::
            d.typeScope.entries.flatMap fun entry => typeEntries g depth entry.symbol

def ofDiagnostic (d : Diagnostic) : DiagnosticEntry :=
  ⟨d.message, d.span.start.line.toNat, d.span.start.character.toNat⟩

def ofContext (c : Context) : Report where
  module := c.module.elim (some "") c.graph.typeText
  types := c.declared.flatMap fun d => typeEntries c.graph c.graph.types.size d.entry.symbol
  values := c.values.map fun v =>
    ⟨v.member.name, c.graph.symbolText v.member.type, v.member.isMutable,
      (c.constant? v.member.name).map Constant.text⟩
  diagnostics := c.diagnostics.map ofDiagnostic

def typeLine (t : TypeEntry) : Option String := do
  let shown ← (t.members ++ t.signatures).mapM id
  return "type " ++ (← t.name) ++ " = <" ++ ", ".intercalate shown ++ ">\n"

def valueLine (v : ValueEntry) : Option String := do
  let constant := (v.constant.map (" = " ++ ·)).getD ""
  return (if v.mutable then "var " else "let ") ++ v.name ++ ": " ++ (← v.type) ++ constant ++ "\n"

def diagnosticLine (d : DiagnosticEntry) : Option String := do
  return "error " ++ Nat.repr d.line ++ ":" ++ Nat.repr d.character ++ ": " ++ (← d.message) ++ "\n"

/-- The lines of a report. There are none if any text in it is missing. -/
def text (r : Report) : Option String := do
  let types ← r.types.mapM typeLine
  let values ← r.values.mapM valueLine
  let diagnostics ← r.diagnostics.mapM diagnosticLine
  return "module " ++ (← r.module) ++ "\n" ++ String.join (types ++ values ++ diagnostics)

def strings (ss : List (Option String)) : Option Json := do return .list ((← ss.mapM id).map .string)

def typeJson (t : TypeEntry) : Option Json := do
  return .object [("name", .string (← t.name)), ("members", ← strings t.members),
    ("signatures", ← strings t.signatures)]

/-- A constant is only written where there is one. -/
def valueJson (v : ValueEntry) : Option Json := do
  return .object ([("name", .string v.name), ("type", .string (← v.type)),
    ("mutable", .boolean v.mutable)] ++ v.constant.toList.map fun constant => ("constant", .string constant))

def diagnosticJson (d : DiagnosticEntry) : Option Json := do
  return .object [("message", .string (← d.message)), ("line", .nat d.line),
    ("character", .nat d.character)]

def json (r : Report) : Option Json := do
  return .object [("module", .string (← r.module)), ("types", .list (← r.types.mapM typeJson)),
    ("values", .list (← r.values.mapM valueJson)),
    ("diagnostics", .list (← r.diagnostics.mapM diagnosticJson))]

end Report

/-- What can keep a document from being bound. -/
inductive BindError where
  | lowering (error : LoweringError)
  | misuse (error : Misuse)
  deriving DecidableEq, Repr

/-- Binds a document as a module of the given name. -/
def bind (d : Document) (moduleName : String) : Except BindError Report :=
  match d.lower 0 with
  | .error e _ => .error (.lowering e)
  | .ok root _ =>
      match (Context.initial moduleName).build root with
      | (c, .ok _) => .ok (.ofContext c)
      | (_, .error e) => .error (.misuse e)

end Binder
