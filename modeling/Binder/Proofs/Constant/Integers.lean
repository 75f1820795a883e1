import Binder.Constant.Fold
import Mathlib.Algebra.Order.Ring.Int
import Mathlib.Tactic.Common

/-! Folding of integers. Each operator wraps around at the width of its operands, and wrapping is
compatible with addition, subtraction and multiplication, so that a whole tree of these folds to its
exact value, wrapped once. -/
namespace Binder

open Binder.Tree (Expr Literal Mark)

/-- The types of integers that are folded. -/
inductive Width where
  | byte | int | long
  deriving DecidableEq, Repr

namespace Width

def code : Width → TypeCode
  | .byte => .byte
  | .int => .int
  | .long => .long

def signed : Width → Bool
  | .byte => false
  | .int | .long => true

/-- What remains of an integer at a width: two's complement, or the remainder if there is no sign. -/
def reduce : Width → Int → Int
  | .byte, n => n % 256
  | .int, n => n.bmod (2 ^ 32)
  | .long, n => n.bmod (2 ^ 64)

def literal? : Width → Literal → Option Int
  | .byte, .byte b => some b.toNat
  | .int, .int i => some i.toInt
  | .long, .long l => some l.toInt
  | _, _ => none

/-- The value of a width that an integer wraps around to. -/
def value : Width → Int → Value
  | .byte, n => .byte (.ofInt n)
  | .int, n => .int (.ofInt n)
  | .long, n => .long (.ofInt n)

end Width

/-- The integer that a value stands for. -/
def Value.integer? : Value → Option Int
  | .byte b => some b.toNat
  | .int i => some i.toInt
  | .long l => some l.toInt
  | _ => none

/-- The binary operators that keep to the integers. -/
inductive Operation where
  | add | sub | mul
  deriving DecidableEq, Repr

namespace Operation

def name : Operation → String
  | .add => "+"
  | .sub => "-"
  | .mul => "*"

def operator : Operation → Operator
  | .add => .add
  | .sub => .sub
  | .mul => .mul

def apply : Operation → Int → Int → Int
  | .add, a, b => a + b
  | .sub, a, b => a - b
  | .mul, a, b => a * b

end Operation

inductive Sign where
  | plus | minus
  deriving DecidableEq, Repr

namespace Sign

def name : Sign → String
  | .plus => "+"
  | .minus => "-"

def apply : Sign → Int → Int
  | .plus, n => n
  | .minus, n => -n

end Sign

/-- The expressions that are built from literals of one width with operators of arithmetic, each with
its exact value. -/
inductive Arithmetic (w : Width) : Expr → Int → Prop
  | literal (note : Mark) {l : Literal} {n : Int} : w.literal? l = some n →
      Arithmetic w (.literal note l) n
  | binary (note mark : Mark) (o : Operation) {left right : Expr} {a b : Int} : Arithmetic w left a →
      Arithmetic w right b → Arithmetic w (.call note (.ident mark o.name) [left, right]) (o.apply a b)
  | unary (note mark : Mark) (s : Sign) {operand : Expr} {n : Int} : w.signed = true →
      Arithmetic w operand n → Arithmetic w (.call note (.ident mark s.name) [operand]) (s.apply n)

variable {w : Width} {n : Int} {e : Expr}

@[simp] theorem Width.code_value (w : Width) (n : Int) : (w.value n).code = w.code := by
  cases w <;> rfl

theorem Width.folds_code (w : Width) : w.code.folds = true := by
  cases w <;> rfl

theorem Width.integer?_value (w : Width) (n : Int) : (w.value n).integer? = some (w.reduce n) := by
  cases w with
  | byte =>
    have hbyte : ((UInt8.ofInt n).toNat : Int) = n % 256 := by
      simp only [UInt8.ofInt, UInt8.toNat_ofNat']
      omega
    exact congrArg some hbyte
  | int => exact congrArg some Int32.toInt_ofInt
  | long => exact congrArg some Int64.toInt_ofInt

theorem Width.ofInt_natCast (n : Nat) : UInt8.ofInt n = UInt8.ofNat n := by
  have hn : ((n : Int) % 2 ^ 8).toNat = n % 2 ^ 8 := by omega
  rw [UInt8.ofInt, hn, UInt8.ofNat_mod_size]

theorem Width.ofLiteral?_of_literal? {l : Literal} (h : w.literal? l = some n) :
    Value.ofLiteral? l = some (w.value n) := by
  unfold Width.literal? at h
  split at h <;> cases h
  next b =>
    rw [Width.value, Width.ofInt_natCast, UInt8.ofNat_toNat]
    rfl
  next i => simp [Value.ofLiteral?, Width.value]
  next l => simp [Value.ofLiteral?, Width.value]

theorem Folded.ofValues_operator (o : Operation) (w : Width) (a b : Int) :
    ofValues o.operator (w.value a) (w.value b) = .value (w.value (o.apply a b)) := by
  cases w with
  | byte =>
    have hsub : UInt8.ofInt (a - b) = UInt8.ofInt a - UInt8.ofInt b := by
      rw [Int.sub_eq_add_neg, UInt8.ofInt_add, UInt8.ofInt_neg, UInt8.sub_eq_add_neg]
    cases o <;> simp [Width.value, Operation.operator, Operation.apply, ofValues, integral,
      UInt8.ofInt_add, UInt8.ofInt_mul, hsub]
  | int =>
    cases o <;> simp [Width.value, Operation.operator, Operation.apply, ofValues, integral,
      Int32.ofInt_add, Int32.ofInt_mul, Int32.ofInt_sub]
  | long =>
    cases o <;> simp [Width.value, Operation.operator, Operation.apply, ofValues, integral,
      Int64.ofInt_add, Int64.ofInt_mul, Int64.ofInt_sub]

namespace Constant

theorem binary_value (o : Operation) (w : Width) (a b : Int) (span right : Span) :
    binary o.name span right (.known (w.value a)) (.known (w.value b)) =
      (.known (w.value (o.apply a b)), []) := by
  have hop : Operator.ofName? o.name = some o.operator := by cases o <;> rfl
  simp only [binary, hop, Width.code_value, Width.folds_code, Folded.ofValues_operator]
  simp

theorem unary_value (s : Sign) (h : w.signed = true) (n : Int) (expects : TypeCode) (span : Span) :
    unary s.name expects span (.known (w.value n)) = (.known (w.value (s.apply n)), []) := by
  have hvalue : unaryValue? s.name (w.value n) = some (w.value (s.apply n)) := by
    cases w with
    | byte => cases h
    | int => cases s <;> simp [unaryValue?, Sign.name, Sign.apply, Width.value, Int32.ofInt_neg]
    | long => cases s <;> simp [unaryValue?, Sign.name, Sign.apply, Width.value, Int64.ofInt_neg]
  rw [unary, hvalue]

/-- The whole tree wraps around once. -/
theorem eval_of_arithmetic (h : Arithmetic w e n) : eval e = (.known (w.value n), []) := by
  induction h with
  | literal note hl => rw [eval, Width.ofLiteral?_of_literal? hl, ofValue?]
  | binary note mark o _ _ ihl ihr => rw [eval, ihl, ihr, binary_value]; rfl
  | unary note mark s hsigned _ ih =>
    have hoperand : unaryOperand? s.name = some .int := by cases s <;> rfl
    rw [eval, hoperand, ih]
    simp only [unary_value s hsigned, List.append_nil]

/-- A tree of integer arithmetic folds without a fault to a constant of its type, whose value is the
exact value of the tree, reduced to the width. -/
theorem eval_reduces_exact_value (h : Arithmetic w e n) :
    ∃ v, eval e = (.known v, []) ∧ v.code = w.code ∧ v.integer? = some (w.reduce n) :=
  ⟨w.value n, eval_of_arithmetic h, w.code_value n, w.integer?_value n⟩

/-- The greatest `Int` squared, negated, and diminished by itself: it wraps around at each operator. -/
def overflowing : Expr :=
  .call default (.ident default "-")
    [.call default (.ident default "-")
      [.call default (.ident default "*")
        [.literal default (.int 2147483647), .literal default (.int 2147483647)]],
      .literal default (.int 2147483647)]

theorem eval_reduces_exact_value_overflowing :
    Arithmetic .int overflowing (-4611686016279904256) ∧ ∃ v, eval overflowing = (.known v, []) ∧
      v.code = .int ∧ v.integer? = some (-2147483648) := by
  have hmax : Arithmetic .int (.literal default (.int 2147483647)) 2147483647 := .literal default rfl
  have hsquare := Arithmetic.binary default default .mul hmax hmax
  have hexact : Arithmetic .int overflowing (-4611686016279904256) :=
    .binary default default .sub (.unary default default .minus rfl hsquare) hmax
  exact ⟨hexact, eval_reduces_exact_value hexact⟩

end Constant
end Binder
