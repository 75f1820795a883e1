import Binder.Json.Numeral

/-! JSON values. A number is kept as it is written, and an object keeps its fields in their order,
repeated ones included, so that a reader of a value can still judge both. -/
namespace Binder

inductive Json where
  | null
  | boolean (value : Bool)
  | number (text : String)
  | string (value : String)
  /-- text in which an escape stands for half of a surrogate pair, or an object with such a name -/
  | garbled
  | list (items : List Json)
  | object (fields : List (String × Json))
  deriving Repr, Inhabited

namespace Json

def nat (n : Nat) : Json := .number (Nat.repr n)

def int (n : Int) : Json := .number (if n < 0 then "-" ++ Nat.repr n.natAbs else Nat.repr n.natAbs)

def numeral? : Json → Option Numeral
  | .number text => Numeral.ofChars? text.toList
  | _ => none

mutual

/-- Whether nothing inside is garbled and every number is within range. -/
def isSound : Json → Bool
  | .null | .boolean _ | .string _ => true
  | .number text => ((Numeral.ofChars? text.toList).map Numeral.isInRange).getD false
  | .garbled => false
  | .list items => allSound items
  | .object fields => allFieldsSound fields

def allSound : List Json → Bool
  | [] => true
  | v :: rest => v.isSound && allSound rest

def allFieldsSound : List (String × Json) → Bool
  | [] => true
  | (_, v) :: rest => v.isSound && allFieldsSound rest

end

mutual

/-- How many lists and objects stand inside each other. -/
def depth : Json → Nat
  | .null | .boolean _ | .number _ | .string _ | .garbled => 0
  | .list items => itemsDepth items + 1
  | .object fields => fieldsDepth fields + 1

def itemsDepth : List Json → Nat
  | [] => 0
  | v :: rest => max v.depth (itemsDepth rest)

def fieldsDepth : List (String × Json) → Nat
  | [] => 0
  | (_, v) :: rest => max v.depth (fieldsDepth rest)

end

end Json
end Binder
