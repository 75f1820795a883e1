import Binder.Json.Fields
import Mathlib.Data.List.TakeWhile
import Mathlib.Tactic.Common

/-! Integers and fields that are read back. An integer that 64 bits hold is what its digits denote, and
a field that an object holds once is found whatever stands around it. -/
namespace Binder.Json

/-! Integers -/

variable {n : Nat} {i : Int}

theorem ofDigits_toDigits (n : Nat) : ofDigits (Nat.toDigits 10 n) = n :=
  Nat.ofDigitChars_toDigits (by decide) (by decide)

theorem all_isDigit_toDigits (n : Nat) : (Nat.toDigits 10 n).all Char.isDigit = true :=
  List.all_eq_true.mpr fun _ => Nat.isDigit_of_mem_toDigits (by decide) (by decide)

theorem head?_toDigits (h : 0 < n) : (Nat.toDigits 10 n).head? ≠ some '0' := by
  induction n using Nat.strongRecOn with
  | ind n ih =>
    rw [Nat.toDigits_eq_if (by decide)]
    split
    next hlt =>
      intro hzero
      exact absurd (Nat.digitChar_eq_zero.mp (Option.some.inj hzero)) (by omega)
    next hge =>
      have hhead := ih (n / 10) (by omega) (by omega)
      obtain ⟨c, ds, hds⟩ := List.exists_cons_of_ne_nil (Nat.toDigits_ne_nil (n := n / 10) (b := 10))
      rw [hds] at hhead ⊢
      exact hhead

theorem no_needless_zero (n : Nat) :
    ¬ ((Nat.toDigits 10 n).head? = some '0' ∧ 1 < (Nat.toDigits 10 n).length) := by
  rintro ⟨hzero, hlength⟩
  rcases Nat.eq_zero_or_pos n with rfl | hpos
  · simp at hlength
  · exact head?_toDigits hpos hzero

namespace Numeral

variable {n : Nat}

theorem unsigned?_toDigits (negative : Bool) (n : Nat) :
    unsigned? negative (Nat.toDigits 10 n) = some ⟨negative, Nat.toDigits 10 n, [], none⟩ := by
  have hdigits := List.all_eq_true.mp (all_isDigit_toDigits n)
  have htake : (Nat.toDigits 10 n).takeWhile Char.isDigit = Nat.toDigits 10 n :=
    List.takeWhile_eq_self_iff.mpr hdigits
  have hdrop : (Nat.toDigits 10 n).dropWhile Char.isDigit = [] :=
    List.dropWhile_eq_nil_iff.mpr hdigits
  have hwhole : ¬ (Nat.toDigits 10 n = [] ∨
      ((Nat.toDigits 10 n).head? = some '0' ∧ 1 < (Nat.toDigits 10 n).length)) := by
    rintro (hnil | hzero)
    · exact Nat.toDigits_ne_nil hnil
    · exact no_needless_zero n hzero
  simp only [unsigned?, htake, hdrop, if_neg hwhole]
  rfl

theorem ofChars?_toDigits (n : Nat) :
    ofChars? (Nat.toDigits 10 n) = some ⟨false, Nat.toDigits 10 n, [], none⟩ := by
  unfold ofChars?
  split
  next cs hminus =>
    have hdigits := all_isDigit_toDigits n
    rw [hminus] at hdigits
    cases hdigits
  next => exact unsigned?_toDigits false n

theorem integer?_of_lt (h : n < Nat.pow 2 64) :
    integer? ⟨false, Nat.toDigits 10 n, [], none⟩ = some (n : Int) := by
  simp [integer?, isPlain, ofDigits_toDigits, h]

theorem integer?_of_le (hpos : n ≠ 0) (h : n ≤ Nat.pow 2 63) :
    integer? ⟨true, Nat.toDigits 10 n, [], none⟩ = some (-(n : Int)) := by
  simp [integer?, isPlain, ofDigits_toDigits, hpos, h]

end Numeral

theorem numeral?_nat (n : Nat) :
    (nat n).numeral? = some ⟨false, Nat.toDigits 10 n, [], none⟩ := by
  rw [nat, numeral?, Nat.repr_eq_ofList_toDigits, String.toList_ofList, Numeral.ofChars?_toDigits]

theorem numeral?_int_of_neg (h : i < 0) :
    (int i).numeral? = some ⟨true, Nat.toDigits 10 i.natAbs, [], none⟩ := by
  have htext : ("-" ++ Nat.repr i.natAbs).toList = '-' :: Nat.toDigits 10 i.natAbs := by
    rw [String.toList_append, Nat.repr_eq_ofList_toDigits]
    exact congrArg (['-'] ++ ·) String.toList_ofList
  rw [int, if_pos h, numeral?, htext]
  exact Numeral.unsigned?_toDigits true _

theorem int_of_nonneg (h : 0 ≤ i) : int i = nat i.toNat := by
  rw [int, if_neg (by omega), nat, show i.natAbs = i.toNat by omega]

theorem integer?_nat (h : n < Nat.pow 2 64) :
    (nat n).numeral?.bind Numeral.integer? = some (n : Int) := by
  rw [numeral?_nat, Option.bind_some, Numeral.integer?_of_lt h]

theorem integer?_int (hlow : -(Nat.pow 2 63 : Int) ≤ i) (hhigh : i < Nat.pow 2 64) :
    (int i).numeral?.bind Numeral.integer? = some i := by
  rcases Int.lt_or_le i 0 with hneg | hnonneg
  · rw [numeral?_int_of_neg hneg, Option.bind_some, Numeral.integer?_of_le (by omega) (by omega)]
    congr 1
    omega
  · rw [int_of_nonneg hnonneg, integer?_nat (by omega)]
    congr 1
    omega

theorem isSound_number {text : String} (h : (number text).numeral?.bind Numeral.integer? = some i) :
    (number text).isSound = true := by
  obtain ⟨n, hn, hi⟩ := Option.bind_eq_some_iff.mp h
  rw [numeral?] at hn
  rw [isSound, hn, Option.map_some, Option.getD_some, Numeral.isInRange, hi]
  rfl

theorem isSound_nat (h : n < Nat.pow 2 64) : (nat n).isSound = true :=
  isSound_number (integer?_nat h)

theorem isSound_int (hlow : -(Nat.pow 2 63 : Int) ≤ i) (hhigh : i < Nat.pow 2 64) :
    (int i).isSound = true := isSound_number (integer?_int hlow hhigh)

/-! Fields -/

variable {β : Type} {fields : List (String × Json)} {name : String} {v : Json}
  {read : Json → Option β}

def named (name : String) (fields : List (String × Json)) : List (String × Json) :=
  fields.filter fun field => field.1 = name

@[simp] theorem named_nil (name : String) : named name [] = [] := rfl

@[simp] theorem named_cons (name : String) (field : String × Json) (fields : List (String × Json)) :
    named name (field :: fields) =
      if field.1 = name then field :: named name fields else named name fields := by
  simp [named, List.filter_cons]

@[simp] theorem named_append (name : String) (l r : List (String × Json)) :
    named name (l ++ r) = named name l ++ named name r := List.filter_append ..

theorem map_once? (name : String) (fields : List (String × Json)) :
    (once? name fields).map (Option.map Subtype.val) =
      match named name fields with
      | [] => some none
      | [field] => some (some field.2)
      | _ => none := by
  induction fields with
  | nil => rfl
  | cons field fields ih =>
    obtain ⟨key, v⟩ := field
    rw [once?, named_cons]
    -- what was found among the other fields decides with the name of this one
    rcases hnamed : named name fields with _ | ⟨first, _ | ⟨second, others⟩⟩ <;> rw [hnamed] at ih
    · obtain ⟨found, hfound, hval⟩ := Option.map_eq_some_iff.mp ih
      rw [hfound, Option.map_eq_none_iff.mp hval]
      by_cases hkey : key = name <;> simp [hkey]
    · obtain ⟨found, hfound, hval⟩ := Option.map_eq_some_iff.mp ih
      obtain ⟨w, rfl, hw⟩ := Option.map_eq_some_iff.mp hval
      rw [hfound]
      by_cases hkey : key = name <;> simp [hkey, hw]
    · rw [Option.map_eq_none_iff.mp ih]
      by_cases hkey : key = name <;> simp [hkey]

theorem once?_of_named (h : named name fields = [(name, v)]) :
    ∃ hv, once? name fields = some (some ⟨v, hv⟩) := by
  have hmap := map_once? name fields
  rw [h] at hmap
  obtain ⟨found, hfound, hval⟩ := Option.map_eq_some_iff.mp hmap
  obtain ⟨⟨w, hw⟩, rfl, rfl⟩ := Option.map_eq_some_iff.mp hval
  exact ⟨hw, hfound⟩

theorem once?_of_missing (h : named name fields = []) : once? name fields = some none := by
  have hmap := map_once? name fields
  rw [h] at hmap
  obtain ⟨found, hfound, hval⟩ := Option.map_eq_some_iff.mp hmap
  rw [hfound, Option.map_eq_none_iff.mp hval]

theorem required_of_named (v : Json) (h : named name fields = [(name, v)]) :
    required fields name (fun v _ => read v) = read v := by
  obtain ⟨hv, honce⟩ := once?_of_named h
  rw [required, honce]

theorem defaulted_of_named (v : Json) (h : named name fields = [(name, v)]) (value : β) :
    defaulted fields name value (fun v _ => read v) = read v := by
  obtain ⟨hv, honce⟩ := once?_of_named h
  rw [defaulted, honce]

theorem defaulted_of_missing {read : (v : Json) → sizeOf v < sizeOf fields → Option β}
    (h : named name fields = []) (value : β) : defaulted fields name value read = some value := by
  rw [defaulted, once?_of_missing h]

theorem optional_of_named (v : Json) (h : named name fields = [(name, v)]) (hv : v ≠ .null) :
    optional fields name (fun v _ => read v) = (read v).map some := by
  have hread : optional fields name (fun v _ => read v) = nullable v (read v) :=
    defaulted_of_named v h none
  rw [hread]
  cases v with
  | null => exact absurd rfl hv
  | _ => rfl

theorem optional_of_missing (h : named name fields = []) :
    optional fields name (fun v _ => read v) = some none :=
  defaulted_of_missing h none

end Binder.Json
