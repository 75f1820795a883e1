import Binder.Constant.Basic
import Binder.Diagnostic

/-! Folding of literals and primitive operators into constants. Integers wrap around at the width
of their type. Whatever is not understood is not constant, which is no fault. -/
namespace Binder

/-- The binary operators that are folded for some type of operands. -/
inductive Operator where
  | add | sub | mul | div | rem | conj | xor | gt | lt | ge | eq | ne | and | or
  deriving DecidableEq, Repr

def Operator.ofName? : String → Option Operator
  | "+" => some .add
  | "-" => some .sub
  | "*" => some .mul
  | "/" => some .div
  | "%" => some .rem
  | "&" => some .conj
  | "^" => some .xor
  | ">" => some .gt
  | "<" => some .lt
  | ">=" => some .ge
  | "==" => some .eq
  | "!=" => some .ne
  | "and" => some .and
  | "or" => some .or
  | _ => none

/-- Whether any operator is folded for operands of this type. -/
def TypeCode.folds : TypeCode → Bool
  | .boolean | .byte | .double | .float | .int | .long | .string => true
  | .null | .rune | .uint | .error | .notConst => false

/-- The outcome of an operator on two values of one type. -/
inductive Folded where
  | value (v : Value)
  | divideByZero
  | notConst
  deriving DecidableEq, Repr

namespace Folded

def truth (b : Bool) : Folded := .value (.boolean b)

def logical (op : Operator) (a b : Bool) : Folded :=
  match op with
  | .and => truth (a && b)
  | .or => truth (a || b)
  | .eq => truth (a == b)
  | .ne => truth (a != b)
  | _ => .notConst

/-- The operators on integers of a fixed width. -/
def integral {α : Type} [Add α] [Sub α] [Mul α] [Div α] [Mod α] [AndOp α] [XorOp α] [OfNat α 0]
    [DecidableEq α] [LT α] [DecidableLT α] (wrap : α → Value) (op : Operator) (a b : α) : Folded :=
  match op with
  | .add => .value (wrap (a + b))
  | .sub => .value (wrap (a - b))
  | .mul => .value (wrap (a * b))
  | .div => if b = 0 then .divideByZero else .value (wrap (a / b))
  | .rem => if b = 0 then .divideByZero else .value (wrap (a % b))
  | .conj => .value (wrap (a &&& b))
  | .xor => .value (wrap (a ^^^ b))
  | .gt => truth (decide (b < a))
  | .lt => truth (decide (a < b))
  | .ge => truth (!decide (a < b))
  | .eq => truth (decide (a = b))
  | .ne => truth (!decide (a = b))
  | .and | .or => .notConst

/-- The operators on floating-point numbers. A NaN is neither below, above nor equal to any. -/
def floating {α : Type} [Add α] [Sub α] [Mul α] [Div α] [OfNat α 0] [BEq α]
    [LT α] [DecidableLT α] [LE α] [DecidableLE α]
    (wrap : α → Value) (op : Operator) (a b : α) : Folded :=
  match op with
  | .add => .value (wrap (a + b))
  | .sub => .value (wrap (a - b))
  | .mul => .value (wrap (a * b))
  | .div => if b == 0 then .divideByZero else .value (wrap (a / b))
  | .gt => truth (decide (b < a))
  | .lt => truth (decide (a < b))
  | .ge => truth (decide (b ≤ a))
  | .eq => truth (a == b)
  | .ne => truth (!(a == b))
  | .rem | .conj | .xor | .and | .or => .notConst

/-- Strings are joined, and compared by code points. -/
def textual (op : Operator) (a b : String) : Folded :=
  match op with
  | .add => .value (.string (a ++ b))
  | .gt => truth (decide (b < a))
  | .lt => truth (decide (a < b))
  | .ge => truth (!decide (a < b))
  | .eq => truth (decide (a = b))
  | .ne => truth (!decide (a = b))
  | _ => .notConst

/-- The outcome for two values, which is only a value when their types agree. -/
def ofValues (op : Operator) : Value → Value → Folded
  | .boolean a, .boolean b => logical op a b
  | .byte a, .byte b => integral .byte op a b
  | .int a, .int b => integral .int op a b
  | .long a, .long b => integral .long op a b
  | .float a, .float b => floating .float op a b
  | .double a, .double b => floating .double op a b
  | .string a, .string b => textual op a b
  | _, _ => .notConst

end Folded

namespace Constant

/-- The outcome of a fold with the faults found on the way. -/
abbrev Evaluated := Constant × List Diagnostic

/-- The type that the operand of a unary operator is expected to have, for the operators folded. -/
def unaryOperand? : String → Option TypeCode
  | "!" => some .boolean
  | "+" => some .int
  | "-" => some .int
  | _ => none

def unaryValue? (op : String) (v : Value) : Option Value :=
  match op, v with
  | "!", .boolean b => some (.boolean (!b))
  | "+", .int i => some (.int i)
  | "+", .float x => some (.float x)
  | "+", .double x => some (.double x)
  | "+", .long l => some (.long l)
  | "-", .int i => some (.int (-i))
  | "-", .long l => some (.long (-l))
  | "-", .float x => some (.float (-x))
  | "-", .double x => some (.double (-x))
  | _, _ => none

/-- A fold that failed at `span` because a value of type `code` was expected there. -/
def expected (span : Span) (code : TypeCode) : Evaluated :=
  (.failed code.zero?, [⟨span, .expectedTypeCode code.text⟩])

def unary (op : String) (expects : TypeCode) (span : Span) : Constant → Evaluated
  | .notConst => (.notConst, [])
  | .failed zero => (.failed zero, [])
  | .known v =>
      match unaryValue? op v with
      | some v => (.known v, [])
      | none => expected span expects

/-- Two operands at once: what is not constant wins over what failed, and the left failure over the
right one. A division by zero keeps the dividend. -/
def binary (op : String) (span right : Span) : Constant → Constant → Evaluated
  | .notConst, _ => (.notConst, [])
  | .failed _, .notConst => (.notConst, [])
  | .known _, .notConst => (.notConst, [])
  | .failed zero, _ => (.failed zero, [])
  | .known _, .failed zero => (.failed zero, [])
  | .known a, .known b =>
      match Operator.ofName? op with
      | none => (.notConst, [])
      | some op =>
          if !a.code.folds then (.notConst, [])
          else if b.code ≠ a.code then expected right a.code
          else match Folded.ofValues op a b with
            | .value v => (.known v, [])
            | .divideByZero => (.known a, [⟨span, .divideByZero⟩])
            | .notConst => (.notConst, [])

/-- Folds an expression. Only literals and calls of bare operator names with one or two operands
are folded; the operands of an unknown unary operator are not looked at. -/
def eval : Tree.Expr → Evaluated
  | .literal _ value => (ofValue? (Value.ofLiteral? value), [])
  | .call _ (.ident _ op) [operand] =>
      match unaryOperand? op with
      | none => (.notConst, [])
      | some expects =>
          let c := eval operand
          let r := unary op expects operand.span c.1
          (r.1, c.2 ++ r.2)
  | .call note (.ident _ op) [left, right] =>
      let l := eval left
      let r := eval right
      let c := binary op note.span right.span l.1 r.1
      (c.1, l.2 ++ r.2 ++ c.2)
  | _ => (.notConst, [])

end Constant
end Binder
