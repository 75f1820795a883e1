/-! Numbers as they are written in JSON text, and the integers and reals that they denote. -/
namespace Binder.Json

/-- The parts of a written number. The digits after the point are empty when there is no point,
and `exponent` is absent when there is no exponent mark. -/
structure Numeral where
  negative : Bool
  whole : List Char
  fraction : List Char
  exponent : Option Int
  deriving DecidableEq, Repr

/-- The value of a list of decimal digits. -/
def ofDigits (digits : List Char) : Nat :=
  digits.foldl (fun n c => 10 * n + (c.toNat - '0'.toNat)) 0

namespace Numeral

/-- The exponent mark, an optional sign and digits, up to the end of the text. -/
def exponent? : List Char → Option (Option Int)
  | [] => some none
  | mark :: rest =>
      if mark = 'e' ∨ mark = 'E' then
        let (negative, digits) := match rest with
          | '-' :: ds => (true, ds)
          | '+' :: ds => (false, ds)
          | ds => (false, ds)
        if digits ≠ [] ∧ digits.all Char.isDigit then
          some (some (if negative then -(ofDigits digits : Int) else ofDigits digits))
        else none
      else none

/-- A number without its sign: digits without a needless leading zero, then perhaps a point with
digits, then perhaps an exponent. -/
def unsigned? (negative : Bool) (cs : List Char) : Option Numeral :=
  let whole := cs.takeWhile Char.isDigit
  let rest := cs.dropWhile Char.isDigit
  if whole = [] ∨ (whole.head? = some '0' ∧ 1 < whole.length) then none
  else match rest with
    | '.' :: tail =>
        let fraction := tail.takeWhile Char.isDigit
        if fraction = [] then none
        else (exponent? (tail.dropWhile Char.isDigit)).map fun e => ⟨negative, whole, fraction, e⟩
    | _ => (exponent? rest).map fun e => ⟨negative, whole, [], e⟩

def ofChars? : List Char → Option Numeral
  | '-' :: cs => unsigned? true cs
  | cs => unsigned? false cs

/-- Whether the number is written with neither a point nor an exponent. -/
def isPlain (n : Numeral) : Bool := n.fraction.isEmpty && n.exponent.isNone

/-- The integer that a plain numeral denotes, if 64 bits hold it. A negative zero is no integer. -/
def integer? (n : Numeral) : Option Int :=
  let value := ofDigits n.whole
  if !n.isPlain then none
  else if n.negative then
    if value ≠ 0 ∧ value ≤ Nat.pow 2 63 then some (-(value : Int)) else none
  else if value < Nat.pow 2 64 then some value else none

/-- Takes digits into a significand as long as it stays below `2 ^ 64`. The answer is the significand
and how many digits were left over. -/
def absorb : Nat → List Char → Nat × Nat
  | significand, [] => (significand, 0)
  | significand, c :: rest =>
      let next := 10 * significand + (c.toNat - '0'.toNat)
      if next < Nat.pow 2 64 then absorb next rest else (significand, rest.length + 1)

/-- The significand of a numeral and the power of ten that it is scaled by. Digits that a 64-bit
significand cannot take are dropped: those before the point still raise the power of ten, those
after it count for nothing. -/
def scaled (n : Numeral) : Nat × Int :=
  let (significand, dropped) := absorb 0 n.whole
  let (significand, unread) := absorb significand n.fraction
  (significand, n.exponent.getD 0 + dropped - (n.fraction.length - unread : Nat))

def powerOfTen (n : Nat) : Float := Float.ofScientific 1 false n

/-- Divides by a power of ten, in steps that are powers of ten of the format themselves. -/
def shrink (x : Float) (power : Nat) : Float :=
  if power ≤ 308 then x / powerOfTen power
  else if x == 0 then x
  else shrink (x / powerOfTen 308) (power - 308)
termination_by power

/-- Multiplies by a power of ten; `none` when the product is too large. -/
def grow? (x : Float) (power : Nat) : Option Float :=
  if power ≤ 308 then
    let product := x * powerOfTen power
    if product.isInf then none else some product
  else if x == 0 then some x
  else none

/-- The binary64 value of a numeral; `none` when the number is too large for any. The significand is
rounded first and then scaled by a rounded power of ten, so that the value may be one or two units
in the last place away from the nearest one. -/
def real? (n : Numeral) : Option Float :=
  let (significand, exponent) := n.scaled
  let start := Float.ofScientific significand false 0
  let size := if exponent < 0 then some (shrink start exponent.natAbs)
    else grow? start exponent.toNat
  size.map fun x => if n.negative then -x else x

/-- Whether the number is an integer of 64 bits or within the range of binary64. -/
def isInRange (n : Numeral) : Bool := n.integer?.isSome || n.real?.isSome

end Numeral
end Binder.Json
