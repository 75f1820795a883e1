import Binder.Json.Numeral

/-! The tokens of JSON text, and a scanner that reads them one character at a time. -/
namespace Binder.Json

inductive Token where
  | openList | closeList | openObject | closeObject | comma | colon
  | null
  | boolean (value : Bool)
  | number (text : String)
  | string (value : String)
  /-- a string in which an escape stands for half of a surrogate pair -/
  | garbled
  deriving DecidableEq, Repr

/-- A piece of a string: a character, or half of a surrogate pair. -/
inductive Piece where
  | char (c : Char)
  | high (offset : Nat)
  | low (offset : Nat)
  deriving DecidableEq, Repr

/-- Where the scanner stands within a string. -/
inductive Quote where
  /-- among ordinary characters -/
  | plain
  /-- after a backslash -/
  | backslash
  /-- after a backslash, the letter `u` and some of the four digits -/
  | code (digits value : Nat)
  deriving DecidableEq, Repr

/-- What the scanner is in the middle of. What was read of it so far is held in reverse. -/
inductive Mode where
  | between
  | numeral (read : List Char)
  | word (read : List Char)
  | quote (state : Quote) (read : List Piece)
  deriving DecidableEq, Repr

def isBlank (c : Char) : Bool := c = ' ' || c = '\t' || c = '\n' || c = '\r'

def isNumeric (c : Char) : Bool :=
  c.isDigit || c = '-' || c = '+' || c = '.' || c = 'e' || c = 'E'

def isLetter (c : Char) : Bool := c.isAlpha

def hexDigit? (c : Char) : Option Nat :=
  if c.isDigit then some (c.toNat - '0'.toNat)
  else if 'a' ≤ c ∧ c ≤ 'f' then some (c.toNat - 'a'.toNat + 10)
  else if 'A' ≤ c ∧ c ≤ 'F' then some (c.toNat - 'A'.toNat + 10)
  else none

/-- The character that stands for itself or a control after a backslash. -/
def unescape? (c : Char) : Option Char :=
  if c = '"' ∨ c = '\\' ∨ c = '/' then some c
  else if c = 'b' then some '\x08'
  else if c = 'f' then some '\x0c'
  else if c = 'n' then some '\n'
  else if c = 'r' then some '\r'
  else if c = 't' then some '\t'
  else none

/-- What four hexadecimal digits stand for. -/
def Piece.ofUnit (unit : Nat) : Piece :=
  if 0xD800 ≤ unit ∧ unit < 0xDC00 then .high (unit - 0xD800)
  else if 0xDC00 ≤ unit ∧ unit < 0xE000 then .low (unit - 0xDC00)
  else .char (Char.ofNat unit)

/-- The characters that pieces make up, each first half being followed by its second half. -/
def Piece.join? : List Piece → Option (List Char)
  | [] => some []
  | .char c :: rest => (join? rest).map (c :: ·)
  | .high h :: .low l :: rest =>
      (join? rest).map (Char.ofNat (0x10000 + h * 0x400 + l) :: ·)
  | .high _ :: _ => none
  | .low _ :: _ => none

/-- One more character of a string, the closing mark apart. -/
def Quote.step (q : Quote) (read : List Piece) (c : Char) : Option (Quote × List Piece) :=
  match q with
  | .plain =>
      if c = '\\' then some (.backslash, read)
      else if c.toNat < 0x20 then none
      else some (.plain, .char c :: read)
  | .backslash =>
      if c = 'u' then some (.code 0 0, read)
      else (unescape? c).map fun d => (.plain, .char d :: read)
  | .code digits value =>
      (hexDigit? c).map fun d =>
        let value := 16 * value + d
        if digits = 3 then (.plain, .ofUnit value :: read)
        else (.code (digits + 1) value, read)

def stringToken (read : List Piece) : Token :=
  match Piece.join? read.reverse with
  | some cs => .string (String.ofList cs)
  | none => .garbled

def word? (read : List Char) : Option Token :=
  match String.ofList read.reverse with
  | "null" => some .null
  | "true" => some (.boolean true)
  | "false" => some (.boolean false)
  | _ => none

/-- A number must be well formed; how large it is does not matter here. -/
def number? (read : List Char) : Option Token :=
  (Numeral.ofChars? read.reverse).map fun _ => .number (String.ofList read.reverse)

/-- A character between tokens: the token that it is, if any, and what it begins. -/
def start? (c : Char) : Option (List Token × Mode) :=
  if isBlank c then some ([], .between)
  else if c = '[' then some ([.openList], .between)
  else if c = ']' then some ([.closeList], .between)
  else if c = '\x7b' then some ([.openObject], .between)
  else if c = '\x7d' then some ([.closeObject], .between)
  else if c = ',' then some ([.comma], .between)
  else if c = ':' then some ([.colon], .between)
  else if c = '"' then some ([], .quote .plain [])
  else if c = '-' ∨ c.isDigit then some ([], .numeral [c])
  else if isLetter c then some ([], .word [c])
  else none

/-- The tokens that end with the next character, and what the scanner is in the middle of then. -/
def Mode.step (m : Mode) (c : Char) : Option (List Token × Mode) :=
  match m with
  | .between => start? c
  | .numeral read =>
      if isNumeric c then some ([], .numeral (c :: read))
      else (number? read).bind fun t => (start? c).map fun (ts, m) => (t :: ts, m)
  | .word read =>
      if isLetter c then some ([], .word (c :: read))
      else (word? read).bind fun t => (start? c).map fun (ts, m) => (t :: ts, m)
  | .quote q read =>
      if q = .plain ∧ c = '"' then some ([stringToken read], .between)
      else (q.step read c).map fun (q, read) => ([], .quote q read)

/-- The token that ends with the text. -/
def Mode.finish? : Mode → Option (List Token)
  | .between => some []
  | .numeral read => (number? read).map ([·])
  | .word read => (word? read).map ([·])
  | .quote _ _ => none

def scan : Mode → List Char → Option (List Token)
  | m, [] => m.finish?
  | m, c :: cs =>
      match m.step c with
      | none => none
      | some ([], m) => scan m cs
      | some (ts, m) => (scan m cs).map (ts ++ ·)

end Binder.Json
