import Binder.Tree.Basic

/-! The text of a tree in the notation of the language: `let a: T = f(1, n = x)`. -/
namespace Binder.Tree

variable {α : Type}

mutual

def Node.text : Node α → String
  | .literal _ value => value.text
  | .ident _ name => name
  | .selection _ target member => target.text ++ "." ++ member
  | .call _ target arguments =>
      target.text ++ "(" ++ ", ".intercalate (nodeTexts arguments) ++ ")"
  | .namedArgument _ name value => name ++ " = " ++ value.text
  | .sequence _ items => "; ".intercalate (nodeTexts items)
  | .definition _ mutable name ascription value =>
      (if mutable then "var " else "let ") ++ name ++ optionalText ": " ascription ++
        optionalText " = " value
  | .typeLiteral _ members => "<" ++ ", ".intercalate (memberTexts members) ++ ">"
  | .arrayType _ element size => element.text ++ "[" ++ optionalText "" size ++ "]"
  | .referenceType _ referent => "*" ++ referent.text
  | .extension _ target members =>
      "extend " ++ target.text ++ " <" ++ ", ".intercalate (memberTexts members) ++ ">"

def nodeTexts : List (Node α) → List String
  | [] => []
  | node :: rest => node.text :: nodeTexts rest

/-- The text of a node that may be absent, after what introduces it. -/
def optionalText (lead : String) : Option (Node α) → String
  | none => ""
  | some node => lead ++ node.text

def Member.text : Member α → String
  | .field name type mutable => (if mutable then "var " else "") ++ name ++ ": " ++ type.text
  | .signature parameters result =>
      "\x7b" ++ ", ".intercalate (parameterTexts parameters) ++ " -> " ++ result.text ++ "\x7d"
  | .nested name value => "let " ++ name ++ " = " ++ value.text

def memberTexts : List (Member α) → List String
  | [] => []
  | member :: rest => member.text :: memberTexts rest

def Parameter.text : Parameter α → String
  | .mk name type fallback => name ++ ": " ++ type.text ++ optionalText " = " fallback

def parameterTexts : List (Parameter α) → List String
  | [] => []
  | parameter :: rest => parameter.text :: parameterTexts rest

end

end Binder.Tree
