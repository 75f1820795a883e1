import Binder.Decimal.Layout

/-! The text of truth values, integers and floating-point numbers. -/
namespace Binder.Text

/-- Numbers are shown positionally from `10 ^ -4` up to `10 ^ 16`; of two equally close decimals
the larger one is shown. -/
def numberLayout : Decimal.Layout := ⟨-4, 16, "", .up⟩

def floating (format : Decimal.Format) (bits : Nat) : String :=
  match format.magnitude bits with
  | .nan => "NaN"
  | .infinite => if format.isNegative bits then "-inf" else "inf"
  | .zero | .finite _ => (numberLayout.finite? format bits).getD ""

def double (x : Float) : String := floating Decimal.binary64 x.toBits.toNat

def single (x : Float32) : String := floating Decimal.binary32 x.toBits.toNat

def integer (n : Int) : String := if n < 0 then "-" ++ Nat.repr n.natAbs else Nat.repr n.natAbs

def boolean (b : Bool) : String := if b then "true" else "false"

end Binder.Text
