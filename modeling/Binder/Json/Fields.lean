import Binder.Json.Basic

/-! Picking fields of an object and items of a list apart. Whoever reads a value inside is handed a
proof that it is smaller, so that readers of nested formats can recurse. -/
namespace Binder.Json

variable {β : Type}

/-- The value of the field `name`: `none` when the field is repeated, `some none` when it is
missing. Fields of other names do not matter. -/
def once? (name : String) :
    (fields : List (String × Json)) → Option (Option {v : Json // sizeOf v < sizeOf fields})
  | [] => some none
  | (key, v) :: rest =>
      match once? name rest with
      | none => none
      | some none =>
          if key = name then
            some (some ⟨v, by simp only [List.cons.sizeOf_spec, Prod.mk.sizeOf_spec]; omega⟩)
          else some none
      | some (some ⟨w, h⟩) =>
          if key = name then none
          else some (some ⟨w, by simp only [List.cons.sizeOf_spec]; omega⟩)

/-- A field that must be there. -/
def required (fields : List (String × Json)) (name : String)
    (read : (v : Json) → sizeOf v < sizeOf fields → Option β) : Option β :=
  match once? name fields with
  | some (some ⟨v, h⟩) => read v h
  | _ => none

/-- A field that takes a default when it is missing. -/
def defaulted (fields : List (String × Json)) (name : String) (value : β)
    (read : (v : Json) → sizeOf v < sizeOf fields → Option β) : Option β :=
  match once? name fields with
  | some (some ⟨v, h⟩) => read v h
  | some none => some value
  | none => none

/-- Reads `null` as nothing. -/
def nullable (v : Json) (read : Option β) : Option (Option β) :=
  match v with
  | .null => some none
  | _ => read.map some

/-- A field that may be missing or `null`. -/
def optional (fields : List (String × Json)) (name : String)
    (read : (v : Json) → sizeOf v < sizeOf fields → Option β) : Option (Option β) :=
  defaulted fields name none fun v h => nullable v (read v h)

/-- Every item of a list, all of which must be readable. -/
def each : (items : List Json) → ((v : Json) → sizeOf v < sizeOf items → Option β) →
    Option (List β)
  | [], _ => some []
  | v :: rest, read =>
      (read v (by simp only [List.cons.sizeOf_spec]; omega)).bind fun b =>
        (each rest fun w h => read w (by simp only [List.cons.sizeOf_spec]; omega)).map (b :: ·)

/-- The items of a list that must be one. -/
def items? (v : Json) (read : (w : Json) → sizeOf w < sizeOf v → Option β) : Option (List β) :=
  match v with
  | .list items => each items fun w h => read w (by simp only [list.sizeOf_spec]; omega)
  | _ => none

def string? : Json → Option String
  | .string s => some s
  | _ => none

def boolean? : Json → Option Bool
  | .boolean b => some b
  | _ => none

end Binder.Json
