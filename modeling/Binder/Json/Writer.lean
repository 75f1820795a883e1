import Binder.Json.Basic
import Binder.Json.Token

/-! Writing JSON values, either without any blank or indented. -/
namespace Binder.Json

def fourDigits (n : Nat) : String :=
  let digits := Nat.toDigits 16 n
  String.ofList (List.replicate (4 - digits.length) '0' ++ digits)

/-- Quotation marks, backslashes and controls are escaped, all else stands for itself. -/
def escape (c : Char) : String :=
  if c = '"' then "\\\""
  else if c = '\\' then "\\\\"
  else if c = '\x08' then "\\b"
  else if c = '\x0c' then "\\f"
  else if c = '\n' then "\\n"
  else if c = '\r' then "\\r"
  else if c = '\t' then "\\t"
  else if c.toNat < 0x20 then "\\u" ++ fourDigits c.toNat
  else c.toString

def quote (s : String) : String := "\"" ++ String.join (s.toList.map escape) ++ "\""

def Token.text : Token → String
  | .openList => "["
  | .closeList => "]"
  | .openObject => "\x7b"
  | .closeObject => "\x7d"
  | .comma => ","
  | .colon => ":"
  | .null => "null"
  | .boolean true => "true"
  | .boolean false => "false"
  | .number text => text
  | .string s => quote s
  | .garbled => "\"\\ud800\""

mutual

def tokens : Json → List Token
  | .null => [.null]
  | .boolean b => [.boolean b]
  | .number text => [.number text]
  | .string s => [.string s]
  | .garbled => [.garbled]
  | .list items => .openList :: itemTokens items ++ [.closeList]
  | .object fields => .openObject :: fieldTokens fields ++ [.closeObject]

def itemTokens : List Json → List Token
  | [] => []
  | [v] => tokens v
  | v :: rest => tokens v ++ .comma :: itemTokens rest

def fieldTokens : List (String × Json) → List Token
  | [] => []
  | [(name, v)] => .string name :: .colon :: tokens v
  | (name, v) :: rest => .string name :: .colon :: tokens v ++ .comma :: fieldTokens rest

end

/-- The text of a value without blanks. -/
def compact (v : Json) : String := String.join (v.tokens.map Token.text)

def newline (depth : Nat) : String := "\n" ++ String.ofList (List.replicate (2 * depth) ' ')

mutual

/-- The text of a value with an item or field on each line, two blanks deeper than what holds it. -/
def indented (depth : Nat) : Json → String
  | .list [] => "[]"
  | .list (v :: rest) =>
      "[" ++ newline (depth + 1) ++ indented (depth + 1) v ++ indentedItems depth rest ++
        newline depth ++ "]"
  | .object [] => "\x7b\x7d"
  | .object ((name, v) :: rest) =>
      "\x7b" ++ newline (depth + 1) ++ quote name ++ ": " ++ indented (depth + 1) v ++
        indentedFields depth rest ++ newline depth ++ "\x7d"
  | .null => "null"
  | .boolean b => if b then "true" else "false"
  | .number text => text
  | .string s => quote s
  | .garbled => Token.garbled.text

def indentedItems (depth : Nat) : List Json → String
  | [] => ""
  | v :: rest =>
      "," ++ newline (depth + 1) ++ indented (depth + 1) v ++ indentedItems depth rest

def indentedFields (depth : Nat) : List (String × Json) → String
  | [] => ""
  | (name, v) :: rest =>
      "," ++ newline (depth + 1) ++ quote name ++ ": " ++ indented (depth + 1) v ++
        indentedFields depth rest

end

def pretty (v : Json) : String := indented 0 v

end Binder.Json
