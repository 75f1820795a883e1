/-! The fewest decimal digits that read back to a binary floating-point value. The value and the
ends of the interval of reals that round to it are compared in exact integer arithmetic. -/
namespace Binder.Decimal

/-- The widths of the two fields of a binary interchange format. -/
structure Format where
  fractionBits : Nat
  exponentBits : Nat
  deriving DecidableEq, Repr

def binary32 : Format := ⟨23, 8⟩

def binary64 : Format := ⟨52, 11⟩

/-- The positive value `m * 2 ^ q`. It is `narrow` when its lower neighbour is only half as far
away as its upper one. -/
structure Binary where
  m : Nat
  q : Int
  narrow : Bool
  deriving DecidableEq, Repr

/-- What the bits of a floating-point value stand for, the sign apart. -/
inductive Magnitude where
  | zero
  | finite (value : Binary)
  | infinite
  | nan
  deriving DecidableEq, Repr

/-- A positive decimal value `digits * 10 ^ exponent`. -/
structure Digits where
  digits : Nat
  exponent : Int
  deriving DecidableEq, Repr

/-- Which of two equally close candidates is taken. -/
inductive Tie where
  | up | even
  deriving DecidableEq, Repr

namespace Format

def isNegative (f : Format) (bits : Nat) : Bool :=
  bits / Nat.pow 2 (f.fractionBits + f.exponentBits) % 2 == 1

def magnitude (f : Format) (bits : Nat) : Magnitude :=
  let fraction := bits % Nat.pow 2 f.fractionBits
  let exponent := bits / Nat.pow 2 f.fractionBits % Nat.pow 2 f.exponentBits
  let least : Int := 2 - Nat.pow 2 (f.exponentBits - 1) - f.fractionBits
  if exponent = Nat.pow 2 f.exponentBits - 1 then
    if fraction = 0 then .infinite else .nan
  else if exponent = 0 then
    if fraction = 0 then .zero else .finite ⟨fraction, least, false⟩
  else
    .finite ⟨Nat.pow 2 f.fractionBits + fraction, least + exponent - 1,
      fraction = 0 && 1 < exponent⟩

end Format

namespace Binary

/-- The decimal unit `10 ^ unitExponent` in which the value is a whole number. -/
def unitExponent (x : Binary) : Int := if 0 ≤ x.q then 0 else x.q

/-- The distance to the upper neighbour, in units. -/
def gap (x : Binary) : Nat := if 0 ≤ x.q then Nat.pow 2 x.q.toNat else Nat.pow 5 (-x.q).toNat

/-- The value itself, in units. -/
def units (x : Binary) : Nat := x.m * x.gap

/-- Whether `n` units round to the value: the ends of the interval belong to it exactly when the
last bit of the value is zero. -/
def readsBack (x : Binary) (n : Nat) : Bool :=
  let low := 4 * x.units - (if x.narrow then x.gap else 2 * x.gap)
  let high := 4 * x.units + 2 * x.gap
  if x.m % 2 = 0 then low ≤ 4 * n && 4 * n ≤ high else low < 4 * n && 4 * n < high

/-- The multiple of `step` next to the value that reads back to it, the nearer one of two. -/
def onGrid (x : Binary) (tie : Tie) (step : Nat) : Option Nat :=
  let below := x.units / step
  match x.readsBack (below * step), x.readsBack ((below + 1) * step) with
  | true, true =>
      match compare (2 * x.units) ((2 * below + 1) * step), tie with
      | .lt, _ => some below
      | .gt, _ => some (below + 1)
      | .eq, .up => some (below + 1)
      | .eq, .even => some (if below % 2 = 0 then below else below + 1)
  | true, false => some below
  | false, true => some (below + 1)
  | false, false => none

/-- The coarsest of the grids `10 ^ n`, …, `10`, `1` units that has a point reading back. -/
def coarsest (x : Binary) (tie : Tie) : Nat → Digits
  | 0 => ⟨x.units, x.unitExponent⟩
  | n + 1 =>
      match x.onGrid tie (Nat.pow 10 (n + 1)) with
      | some d => ⟨d, x.unitExponent + (n + 1)⟩
      | none => x.coarsest tie n

end Binary

/-- Moves up to `n` trailing zeros of the digits into the exponent. -/
def Digits.strip (d : Digits) : Nat → Digits
  | 0 => d
  | n + 1 =>
      if d.digits ≠ 0 ∧ d.digits % 10 = 0 then
        Digits.strip ⟨d.digits / 10, d.exponent + 1⟩ n
      else d

/-- The number of decimal digits of a natural number. -/
def digitCount (n : Nat) : Nat := (Nat.toDigits 10 n).length

/-- The shortest digits that read back to `x`; among those the closest to it. -/
def Binary.shortest (x : Binary) (tie : Tie) : Digits :=
  let d := x.coarsest tie (digitCount x.units - 1)
  d.strip (digitCount d.digits)

end Binder.Decimal
