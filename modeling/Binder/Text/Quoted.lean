import Binder.Text.Invisible

/-! Text between quotation marks. A backslash marks the quotation mark itself, the backslash and a
few controls; any other invisible character is given by its number. -/
namespace Binder.Text

def hexadecimal (n : Nat) : String := String.ofList (Nat.toDigits 16 n)

def escaped (mark c : Char) : String :=
  if c = '\x00' then "\\0"
  else if c = '\t' then "\\t"
  else if c = '\r' then "\\r"
  else if c = '\n' then "\\n"
  else if c = '\\' || c = mark then String.ofList ['\\', c]
  else if isInvisible c then "\\u\x7b" ++ hexadecimal c.toNat ++ "\x7d"
  else c.toString

/-- The characters between two `mark`s, of which none inside is left unescaped. -/
def quoted (mark : Char) (cs : List Char) : String :=
  mark.toString ++ String.join (cs.map (escaped mark)) ++ mark.toString

def quotedString (s : String) : String := quoted '"' s.toList

def quotedRune (c : Char) : String := quoted '\x27' [c]

end Binder.Text
