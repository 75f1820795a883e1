import Binder.Document.Decode
import Binder.Report

/-! The command line: what its arguments mean, and what it prints for a document. -/
namespace Binder.Command

inductive OutputFormat where
  | text | json
  deriving DecidableEq, Repr

namespace OutputFormat

def all : List OutputFormat := [.text, .json]

def name : OutputFormat → String
  | .text => "text"
  | .json => "json"

def ofName? (s : String) : Option OutputFormat := all.find? fun f => f.name = s

end OutputFormat

structure Options where
  format : OutputFormat := .text
  module : String := "main"
  /-- the file to read; without one the standard input is read -/
  input : Option String := none
  deriving DecidableEq, Repr

inductive Failure where
  /-- the arguments do not fit the command line -/
  | usage
  | invalidOption (reason : String)
  | unreadable
  | notADocument
  | bind (error : BindError)
  /-- the report has no text, because a type in it would be spelled out for ever -/
  | endless
  deriving DecidableEq, Repr

def Failure.message : Failure → String
  | .usage => "usage: [--format text|json] [--module NAME] [INPUT]"
  | .invalidOption reason => "invalid option: " ++ reason
  | .unreadable => "NotFound"
  | .notADocument => "invalid document"
  | .bind (.lowering e) => e.message
  | .bind (.misuse e) => (e.message.map ("internal error: " ++ ·)).getD "type contains itself"
  | .endless => "type contains itself"

def OutputFormat.parse (s : String) : Except Failure OutputFormat :=
  match OutputFormat.ofName? s with
  | some f => .ok f
  | none => .error (.invalidOption ("Unknown format option: `" ++ s ++ "`"))

/-- The arguments as they are given, each at most once. -/
structure Given where
  format : Option String := none
  module : Option String := none
  input : Option String := none
  deriving DecidableEq, Repr

namespace Given

def setInput? (g : Given) (path : String) : Option Given :=
  if g.input.isSome then none else some { g with input := some path }

def setOption? (g : Given) (name value : String) : Option Given :=
  match name with
  | "format" => if g.format.isSome then none else some { g with format := some value }
  | "module" => if g.module.isSome then none else some { g with module := some value }
  | _ => none

end Given

/-- A dash and anything after it make an option; a dash alone is a value. -/
def isOption (arg : String) : Bool :=
  match arg.toList with
  | '-' :: _ :: _ => true
  | _ => false

/-- The name of a long option and the value attached to it by an equals sign. -/
def splitOption (arg : String) : String × Option String :=
  let body := arg.toList.dropWhile (· = '-')
  let name := String.ofList (body.takeWhile (· ≠ '='))
  match body.dropWhile (· ≠ '=') with
  | [] => (name, none)
  | rest => (name, some (String.ofList (rest.dropWhile (· = '='))))

def isLong (arg : String) : Bool :=
  match arg.toList with
  | '-' :: '-' :: _ => true
  | _ => false

/-- Sorts the arguments. After two dashes on their own every argument is an input. -/
def sort? : List String → Given → Option Given
  | [], g => some g
  | arg :: rest, g =>
      if arg = "--" then rest.foldlM Given.setInput? g
      else if isLong arg then
        match splitOption arg, rest with
        | (name, some value), rest => (g.setOption? name value).bind (sort? rest)
        | (name, none), value :: rest =>
            if isOption value then none else (g.setOption? name value).bind (sort? rest)
        | (_, none), [] => none
      else if isOption arg then none
      else (g.setInput? arg).bind (sort? rest)

/-- The options that arguments stand for. A format must be one of the known ones, and the name of a
module must not be empty. -/
def options (args : List String) : Except Failure Options := do
  let some given := sort? args {} | throw .usage
  let format ← match given.format with
    | none => pure .text
    | some s =>
        match OutputFormat.ofName? s with
        | some f => pure f
        | none => throw .usage
  let name := given.module.getD "main"
  if name.isEmpty then throw (.invalidOption "module name must not be empty")
  return ⟨format, name, given.input⟩

/-- What is printed for the text of a document. -/
def output (o : Options) (source : String) : Except Failure String :=
  match Document.read? source with
  | none => .error .notADocument
  | some d =>
      match Binder.bind d o.module with
      | .error e => .error (.bind e)
      | .ok report =>
          let printed := match o.format with
            | .text => report.text
            | .json => report.json.map (Json.pretty · ++ "\n")
          printed.elim (.error .endless) .ok

/-- The whole command; `read` is handed the path to read, or none for the standard input. -/
def run (args : List String) (read : Option String → Option String) : Except Failure String := do
  let o ← options args
  match read o.input with
  | none => throw .unreadable
  | some source => output o source

end Binder.Command
