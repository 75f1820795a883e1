import Binder.Proofs.Constant.Integers

/-! Division of integers. Quotients are truncated and wrap around in one case only, remainders never do,
and both fit together at every width. A divisor of zero is reported and keeps the dividend. -/
namespace Binder

open Binder.Tree (Expr Mark)

namespace Width

def least : Width → Int
  | .byte => 0
  | .int => -2 ^ 31
  | .long => -2 ^ 63

def limit : Width → Int
  | .byte => 256
  | .int => 2 ^ 31
  | .long => 2 ^ 63

/-- The integers that a width has values for. -/
def Holds (w : Width) (n : Int) : Prop := w.least ≤ n ∧ n < w.limit

variable {w : Width} {m n : Int}

theorem reduce_of_holds (h : w.Holds n) : w.reduce n = n := by
  cases w with
  | byte => exact Int.emod_eq_of_lt h.1 h.2
  | int => exact Int.bmod_eq_of_le h.1 h.2
  | long => exact Int.bmod_eq_of_le h.1 h.2

theorem exists_value {v : Value} (h : v.code = w.code) : ∃ n, w.Holds n ∧ v = w.value n := by
  cases w with
  | byte =>
    cases v with
    | byte b =>
      have hlt := b.toNat_lt
      refine ⟨b.toNat, ⟨Int.natCast_nonneg _, ?_⟩, ?_⟩
      · simp only [limit]
        omega
      · rw [value, ofInt_natCast, UInt8.ofNat_toNat]
    | _ => cases h
  | int =>
    cases v with
    | int i => exact ⟨i.toInt, ⟨i.le_toInt, i.toInt_lt⟩, by simp [value]⟩
    | _ => cases h
  | long =>
    cases v with
    | long l => exact ⟨l.toInt, ⟨l.le_toInt, l.toInt_lt⟩, by simp [value]⟩
    | _ => cases h

/-- Only the least value, divided by -1, has a quotient past the limit. -/
theorem holds_tdiv (hm : w.Holds m) (hn : w.Holds n) (hzero : n ≠ 0) (h : ¬(m = w.least ∧ n = -1)) :
    w.Holds (m.tdiv n) := by
  have habs := Int.natAbs_tdiv m n
  have hle : m.natAbs.div n.natAbs ≤ m.natAbs := Nat.div_le_self ..
  cases w with
  | byte =>
    have hpos := Int.tdiv_nonneg hm.1 hn.1
    simp only [Holds, least, limit] at *
    omega
  | int | long =>
    simp only [Holds, least, limit] at *
    by_cases hone : n.natAbs = 1
    · rcases (by omega : n = 1 ∨ n = -1) with rfl | rfl
      · rw [Int.tdiv_one]
        omega
      · rw [Int.tdiv_neg, Int.tdiv_one]
        omega
    · have hhalf : m.natAbs.div n.natAbs ≤ m.natAbs / 2 := Nat.div_le_div_left (by omega) (by decide)
      omega

theorem reduce_tdiv (hm : w.Holds m) (hn : w.Holds n) (hzero : n ≠ 0) :
    w.reduce (m.tdiv n) = if m = w.least ∧ n = -1 then w.least else m.tdiv n := by
  split
  next h =>
    obtain ⟨rfl, rfl⟩ := h
    cases w with
    | byte => exact absurd hn.1 (by decide)
    | int | long => decide
  next h => exact reduce_of_holds (holds_tdiv hm hn hzero h)

theorem natAbs_tmod_lt (m : Int) (hzero : n ≠ 0) : (m.tmod n).natAbs < n.natAbs := by
  rw [Int.natAbs_tmod]
  exact Nat.mod_lt _ (Int.natAbs_pos.mpr hzero)

theorem holds_tmod (hm : w.Holds m) (hn : w.Holds n) (hzero : n ≠ 0) : w.Holds (m.tmod n) := by
  have hlt := natAbs_tmod_lt m hzero
  cases w with
  | byte =>
    have hpos := Int.tmod_nonneg n hm.1
    simp only [Holds, least, limit] at *
    omega
  | int | long =>
    simp only [Holds, least, limit] at *
    omega

theorem value_eq_zero_iff (h : w.Holds n) : w.value n = w.value 0 ↔ n = 0 := by
  refine ⟨fun heq => ?_, fun heq => heq ▸ rfl⟩
  have hinteger := congrArg Value.integer? heq
  rw [integer?_value, integer?_value, reduce_of_holds h] at hinteger
  cases w <;> exact Option.some.inj hinteger

end Width

/-- The operators that divide. -/
inductive Division where
  | quotient | remainder
  deriving DecidableEq, Repr

namespace Division

def name : Division → String
  | .quotient => "/"
  | .remainder => "%"

def operator : Division → Operator
  | .quotient => .div
  | .remainder => .rem

def apply : Division → Int → Int → Int
  | .quotient => Int.tdiv
  | .remainder => Int.tmod

def call (d : Division) (note mark : Mark) (left right : Expr) : Expr :=
  .call note (.ident mark d.name) [left, right]

end Division

variable {w : Width} {m n : Int}

theorem Folded.ofValues_division (d : Division) (hm : w.Holds m) (hn : w.Holds n) :
    ofValues d.operator (w.value m) (w.value n) =
      if n = 0 then .divideByZero else .value (w.value (d.apply m n)) := by
  have hzero := Width.value_eq_zero_iff hn
  cases w with
  | byte =>
    obtain ⟨m, rfl⟩ := Int.eq_ofNat_of_zero_le hm.1
    obtain ⟨n, rfl⟩ := Int.eq_ofNat_of_zero_le hn.1
    have hm' : m < 2 ^ 8 := Int.ofNat_lt.mp hm.2
    have hn' : n < 2 ^ 8 := Int.ofNat_lt.mp hn.2
    have hdiv : UInt8.ofInt ((m : Int).tdiv n) = UInt8.ofInt m / UInt8.ofInt n := by
      rw [← Int.ofNat_tdiv, Width.ofInt_natCast, UInt8.ofNat_div hm' hn', Width.ofInt_natCast,
        Width.ofInt_natCast]
    have hmod : UInt8.ofInt ((m : Int).tmod n) = UInt8.ofInt m % UInt8.ofInt n := by
      rw [← Int.ofNat_tmod, Width.ofInt_natCast, UInt8.ofNat_mod hm' hn', Width.ofInt_natCast,
        Width.ofInt_natCast]
    have hnone : UInt8.ofInt 0 = 0 := rfl
    simp only [Width.value, Value.byte.injEq, hnone, Int.natCast_eq_zero] at hzero
    cases d <;> simp only [Width.value, Division.operator, Division.apply, ofValues, integral, hzero, hdiv,
      hmod, Int.natCast_eq_zero]
  | int =>
    have hm' : m ≤ Int32.maxValue.toInt := Int.le_of_lt_add_one hm.2
    have hn' : n ≤ Int32.maxValue.toInt := Int.le_of_lt_add_one hn.2
    cases d <;> simp_all [Width.value, Division.operator, Division.apply, ofValues, integral,
      Int32.ofInt_tdiv hm.1 hm' hn.1 hn', Int32.ofInt_tmod hm.1 hm' hn.1 hn']
  | long =>
    have hm' : m ≤ Int64.maxValue.toInt := Int.le_of_lt_add_one hm.2
    have hn' : n ≤ Int64.maxValue.toInt := Int.le_of_lt_add_one hn.2
    cases d <;> simp_all [Width.value, Division.operator, Division.apply, ofValues, integral,
      Int64.ofInt_tdiv hm.1 hm' hn.1 hn', Int64.ofInt_tmod hm.1 hm' hn.1 hn']

namespace Constant

variable {left right : Expr}

theorem eval_division (d : Division) (note mark : Mark) (hm : w.Holds m) (hn : w.Holds n)
    (hl : eval left = (.known (w.value m), [])) (hr : eval right = (.known (w.value n), [])) :
    eval (d.call note mark left right) =
      if n = 0 then (.known (w.value m), [⟨note.span, .divideByZero⟩])
      else (.known (w.value (d.apply m n)), []) := by
  have hop : Operator.ofName? d.name = some d.operator := by cases d <;> rfl
  rw [Division.call, eval, hl, hr]
  simp only [binary, hop, Width.code_value, Width.folds_code, Folded.ofValues_division d hm hn]
  by_cases hzero : n = 0 <;> simp [hzero]

/-- Division and remainder fit together. Let two expressions fold without a fault to constants of one
type of integers. If the divisor is zero, both keep the dividend and report that. Otherwise they fold
without a fault; the quotient is truncated, except that the least value divided by -1 is itself; the
remainder is smaller than the divisor and has the sign of the dividend, unless it is zero; and quotient
times divisor plus remainder is the dividend. -/
theorem eval_division_fits {a b : Value} (hl : eval left = (.known a, []))
    (hr : eval right = (.known b, [])) (ha : a.code = w.code) (hb : b.code = w.code)
    (note mark note' mark' sum plus product times : Mark) :
    ∃ m n, a.integer? = some m ∧ b.integer? = some n ∧
      (n = 0 →
        eval (Division.quotient.call note mark left right) =
          (.known a, [⟨note.span, .divideByZero⟩]) ∧
        eval (Division.remainder.call note' mark' left right) =
          (.known a, [⟨note'.span, .divideByZero⟩])) ∧
      (n ≠ 0 → ∃ q r i j,
        eval (Division.quotient.call note mark left right) = (.known q, []) ∧
        eval (Division.remainder.call note' mark' left right) = (.known r, []) ∧
        q.code = w.code ∧ r.code = w.code ∧ q.integer? = some i ∧ r.integer? = some j ∧
        (i = if m = w.least ∧ n = -1 then w.least else m.tdiv n) ∧
        (m = w.least ∧ n = -1 → j = 0) ∧ j.natAbs < n.natAbs ∧ (j = 0 ∨ j.sign = m.sign) ∧
        eval (.call sum (.ident plus "+")
          [.call product (.ident times "*") [Division.quotient.call note mark left right, right],
            Division.remainder.call note' mark' left right]) = (.known a, [])) := by
  obtain ⟨m, hm, rfl⟩ := Width.exists_value ha
  obtain ⟨n, hn, rfl⟩ := Width.exists_value hb
  have hquotient := eval_division .quotient note mark hm hn hl hr
  have hremainder := eval_division .remainder note' mark' hm hn hl hr
  refine ⟨m, n, ?_, ?_, fun hzero => ?_, fun hzero => ?_⟩
  · rw [Width.integer?_value, Width.reduce_of_holds hm]
  · rw [Width.integer?_value, Width.reduce_of_holds hn]
  · rw [hquotient, hremainder, if_pos hzero, if_pos hzero]
    exact ⟨rfl, rfl⟩
  · rw [if_neg hzero] at hquotient hremainder
    have hsmall := Width.natAbs_tmod_lt m hzero
    refine ⟨_, _, _, _, hquotient, hremainder, w.code_value _, w.code_value _, w.integer?_value _,
      w.integer?_value _, Width.reduce_tdiv hm hn hzero, ?_⟩
    rw [show Division.remainder.apply m n = m.tmod n from rfl,
      Width.reduce_of_holds (Width.holds_tmod hm hn hzero)]
    refine ⟨?_, hsmall, ?_, ?_⟩
    · rintro ⟨-, rfl⟩
      omega
    · have hsign := Int.sign_tmod m n
      split at hsign
      · exact .inl (Int.sign_eq_zero_iff_zero.mp hsign)
      · exact .inr hsign
    · have hproduct : eval (.call product (.ident times "*")
          [Division.quotient.call note mark left right, right]) = (.known (w.value (m.tdiv n * n)), []) := by
        rw [eval, hquotient, hr]
        exact congrArg (fun r : Evaluated => (r.1, [] ++ [] ++ r.2)) (binary_value .mul w ..)
      rw [eval, hproduct, hremainder]
      have hsum := binary_value .add w (m.tdiv n * n) (m.tmod n) sum.span
        (Division.remainder.call note' mark' left right).span
      rw [Operation.apply, Int.tdiv_mul_add_tmod] at hsum
      exact congrArg (fun r : Evaluated => (r.1, [] ++ [] ++ r.2)) hsum

/-- The least `Int` divided by -1, which wraps around. -/
theorem eval_division_fits_least :
    eval (.literal default (.int (-2147483648))) = (.known (.int (-2147483648)), []) ∧
    ∃ q r i j,
      eval (Division.quotient.call default default (.literal default (.int (-2147483648)))
        (.literal default (.int (-1)))) = (.known q, []) ∧
      eval (Division.remainder.call default default (.literal default (.int (-2147483648)))
        (.literal default (.int (-1)))) = (.known r, []) ∧
      q.integer? = some i ∧ r.integer? = some j ∧ i = -2147483648 ∧ j = 0 := by
  have hl : eval (.literal default (.int (-2147483648))) = (.known (.int (-2147483648)), []) := by
    rw [eval]
    rfl
  have hr : eval (.literal default (.int (-1))) = (.known (.int (-1)), []) := by
    rw [eval]
    rfl
  obtain ⟨_, _, hm, hn, -, h⟩ := eval_division_fits (w := .int) hl hr rfl rfl default default default
    default default default default default
  cases hm
  cases hn
  obtain ⟨q, r, i, j, hq, hr, -, -, hi, hj, rfl, hzero, -⟩ := h (by decide)
  exact ⟨hl, q, r, _, j, hq, hr, hi, hj, by decide, hzero (by decide)⟩

end Constant
end Binder
