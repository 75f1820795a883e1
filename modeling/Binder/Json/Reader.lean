import Binder.Json.Basic
import Binder.Json.Token

/-! Reading a JSON value from its tokens. The lists and objects that are still open are held on a
stack, so that they may stand inside each other as deeply as they like. -/
namespace Binder.Json

/-- Fields in reverse, each with its name unless that is garbled. -/
abbrev Fields := List (Option String × Json)

/-- A list or object that is still open, with what it holds so far in reverse. -/
inductive Frame where
  | list (items : List Json)
  | field (fields : Fields) (name : Option String)
  deriving Repr

/-- What the reader expects next. -/
inductive State where
  | value (stack : List Frame)
  | firstItem (stack : List Frame)
  | firstName (stack : List Frame)
  | nextName (fields : Fields) (stack : List Frame)
  | colon (fields : Fields) (name : Option String) (stack : List Frame)
  | nextItem (items : List Json) (stack : List Frame)
  | nextField (fields : Fields) (stack : List Frame)
  | complete (value : Json)
  deriving Repr

/-- An object is garbled as a whole when one of its names is. -/
def ofFields (fields : Fields) : Json :=
  match fields.reverse.mapM fun field => field.1.map fun name => (name, field.2) with
  | some fields => .object fields
  | none => .garbled

/-- Hands a finished value to the innermost open list or object. -/
def deliver (stack : List Frame) (v : Json) : State :=
  match stack with
  | [] => .complete v
  | .list items :: rest => .nextItem (v :: items) rest
  | .field fields name :: rest => .nextField ((name, v) :: fields) rest

/-- The first token of a value. -/
def begin (stack : List Frame) (t : Token) : Option State :=
  match t with
  | .null => some (deliver stack .null)
  | .boolean b => some (deliver stack (.boolean b))
  | .number text => some (deliver stack (.number text))
  | .string s => some (deliver stack (.string s))
  | .garbled => some (deliver stack .garbled)
  | .openList => some (.firstItem stack)
  | .openObject => some (.firstName stack)
  | .closeList | .closeObject | .comma | .colon => none

def State.step (s : State) (t : Token) : Option State :=
  match s, t with
  | .value stack, t => begin stack t
  | .firstItem stack, .closeList => some (deliver stack (.list []))
  | .firstItem stack, t => begin (.list [] :: stack) t
  | .firstName stack, .closeObject => some (deliver stack (.object []))
  | .firstName stack, .string name => some (.colon [] (some name) stack)
  | .firstName stack, .garbled => some (.colon [] none stack)
  | .nextName fields stack, .string name => some (.colon fields (some name) stack)
  | .nextName fields stack, .garbled => some (.colon fields none stack)
  | .colon fields name stack, .colon => some (.value (.field fields name :: stack))
  | .nextItem items stack, .comma => some (.value (.list items :: stack))
  | .nextItem items stack, .closeList => some (deliver stack (.list items.reverse))
  | .nextField fields stack, .comma => some (.nextName fields stack)
  | .nextField fields stack, .closeObject => some (deliver stack (ofFields fields))
  | _, _ => none

def run : State → List Token → Option Json
  | .complete v, [] => some v
  | _, [] => none
  | s, t :: ts => (s.step t).bind fun s => run s ts

/-- The value of a whole text. -/
def parse? (text : String) : Option Json :=
  (scan .between text.toList).bind (run (.value []))

end Binder.Json
