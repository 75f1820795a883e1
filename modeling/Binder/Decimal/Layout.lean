import Binder.Decimal.Shortest

/-! How the digits of a floating-point value are laid out: positionally within a range of
magnitudes, otherwise with an exponent. -/
namespace Binder.Decimal

/-- The decisions of one number format. -/
structure Layout where
  /-- The least decimal exponent that is written positionally. -/
  least : Int
  /-- The first decimal exponent that is again written with an exponent mark. -/
  beyond : Int
  /-- What stands before an exponent that is not negative. -/
  plus : String
  tie : Tie
  deriving DecidableEq, Repr

namespace Layout

/-- Digits with a point in front of the last `places` of them, and at least one on each side. -/
def pointed (digits : List Char) (places : Nat) : String :=
  let whole := digits.take (digits.length - places)
  let part := digits.drop (digits.length - places)
  let padded := List.replicate (places - part.length) '0' ++ part
  String.ofList (if whole.isEmpty then ['0'] else whole) ++ "." ++
    String.ofList (if padded.isEmpty then ['0'] else padded)

def positional (d : Digits) : String :=
  if 0 ≤ d.exponent then
    pointed (Nat.toDigits 10 d.digits ++ List.replicate d.exponent.toNat '0') 0
  else
    pointed (Nat.toDigits 10 d.digits) (-d.exponent).toNat

def scientific (layout : Layout) (d : Digits) (exponent : Int) : String :=
  let digits := Nat.toDigits 10 d.digits
  let mantissa := if digits.length ≤ 1 then String.ofList digits else
    pointed digits (digits.length - 1)
  let sign := if exponent < 0 then "-" else layout.plus
  mantissa ++ "e" ++ sign ++ Nat.repr exponent.natAbs

def digits (layout : Layout) (d : Digits) : String :=
  let exponent := d.exponent + digitCount d.digits - 1
  if layout.least ≤ exponent ∧ exponent < layout.beyond then positional d
  else layout.scientific d exponent

/-- The text of a finite value given by its bits; infinities and NaN have none. -/
def finite? (layout : Layout) (format : Format) (bits : Nat) : Option String :=
  let sign := if format.isNegative bits then "-" else ""
  match format.magnitude bits with
  | .zero => some (sign ++ "0.0")
  | .finite x => some (sign ++ layout.digits (x.shortest layout.tie))
  | .infinite | .nan => none

end Layout
end Binder.Decimal
