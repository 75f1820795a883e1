import Binder.Tree.Basic

/-! Orders in which the nodes of a tree are met: the top-level bindings with the sequences around
them, and all nodes with parents before their children. -/
namespace Binder.Tree

variable {α : Type}

/-- A step of the walk over the bindings of a module. -/
inductive Event (α : Type) where
  | enter (sequence : Node α)
  | exit (sequence : Node α)
  | visit (binding : Node α)

mutual

/-- Sequences are entered and left, with their items in between; any other node is one binding. -/
def Node.events : Node α → List (Event α)
  | .sequence note items =>
      .enter (.sequence note items) :: eventsOf items ++ [.exit (.sequence note items)]
  | node => [.visit node]

def eventsOf : List (Node α) → List (Event α)
  | [] => []
  | node :: rest => node.events ++ eventsOf rest

end

mutual

/-- The bindings of a module from left to right, without the sequences that group them. -/
def Node.bindings : Node α → List (Node α)
  | .sequence _ items => bindingsOf items
  | node => [node]

def bindingsOf : List (Node α) → List (Node α)
  | [] => []
  | node :: rest => node.bindings ++ bindingsOf rest

end

mutual

/-- A node and all nodes below it, each before its children, children in source order. -/
def Node.preorder : Node α → List (Node α)
  | .selection note target member =>
      .selection note target member :: target.preorder
  | .call note target arguments =>
      .call note target arguments :: target.preorder ++ preorderOf arguments
  | .namedArgument note name value => .namedArgument note name value :: value.preorder
  | .sequence note items => .sequence note items :: preorderOf items
  | .definition note mutable name ascription value =>
      .definition note mutable name ascription value :: preorderOption ascription ++
        preorderOption value
  | .typeLiteral note members => .typeLiteral note members :: preorderMembers members
  | .arrayType note element size =>
      .arrayType note element size :: element.preorder ++ preorderOption size
  | .referenceType note referent => .referenceType note referent :: referent.preorder
  | .extension note target members =>
      .extension note target members :: target.preorder ++ preorderMembers members
  | node => [node]

def preorderOf : List (Node α) → List (Node α)
  | [] => []
  | node :: rest => node.preorder ++ preorderOf rest

def preorderOption : Option (Node α) → List (Node α)
  | none => []
  | some node => node.preorder

def Member.preorder : Member α → List (Node α)
  | .field _ type _ => type.preorder
  | .signature parameters result => preorderParameters parameters ++ result.preorder
  | .nested _ value => value.preorder

def preorderMembers : List (Member α) → List (Node α)
  | [] => []
  | member :: rest => member.preorder ++ preorderMembers rest

def Parameter.preorder : Parameter α → List (Node α)
  | .mk _ type fallback => type.preorder ++ preorderOption fallback

def preorderParameters : List (Parameter α) → List (Node α)
  | [] => []
  | parameter :: rest => parameter.preorder ++ preorderParameters rest

end

end Binder.Tree
