import Binder.Proofs.Tree.Numbering

/-! Trees without their notes, and the shape that a document keeps when it is numbered: sequences are
grouped in pairs, and everything else stays. -/
namespace Binder.Tree

variable {α : Type}

mutual

/-- A tree without its notes. -/
def Node.erase : Node α → Node Unit
  | .literal _ value => .literal () value
  | .ident _ name => .ident () name
  | .selection _ target member => .selection () target.erase member
  | .call _ target arguments => .call () target.erase (eraseAll arguments)
  | .namedArgument _ name value => .namedArgument () name value.erase
  | .sequence _ items => .sequence () (eraseAll items)
  | .definition _ mutable name ascription value =>
      .definition () mutable name (eraseOption ascription) (eraseOption value)
  | .typeLiteral _ members => .typeLiteral () (eraseMembers members)
  | .arrayType _ element size => .arrayType () element.erase (eraseOption size)
  | .referenceType _ referent => .referenceType () referent.erase
  | .extension _ target members => .extension () target.erase (eraseMembers members)

def eraseAll : List (Node α) → List (Node Unit)
  | [] => []
  | node :: rest => node.erase :: eraseAll rest

def eraseOption : Option (Node α) → Option (Node Unit)
  | none => none
  | some node => some node.erase

def Member.erase : Member α → Member Unit
  | .field name type mutable => .field name type.erase mutable
  | .signature parameters result => .signature (eraseParameters parameters) result.erase
  | .nested name value => .nested name value.erase

def eraseMembers : List (Member α) → List (Member Unit)
  | [] => []
  | member :: rest => member.erase :: eraseMembers rest

def Parameter.erase : Parameter α → Parameter Unit
  | .mk name type fallback => .mk name type.erase (eraseOption fallback)

def eraseParameters : List (Parameter α) → List (Parameter Unit)
  | [] => []
  | parameter :: rest => parameter.erase :: eraseParameters rest

end

theorem eraseAll_eq (nodes : List (Node α)) : eraseAll nodes = nodes.map Node.erase := by
  induction nodes with
  | nil => rfl
  | cons node rest ih => simp [eraseAll, ih]

section Inversion

variable {e : Node α} {m : Member α} {p : Parameter α} {name : String} {mutable : Bool}
  {target type result : Node Unit} {members rest : List (Member Unit)} {ms : List (Member α)}
  {parameters : List (Parameter Unit)} {ps : List (Parameter α)} {node : Option (Node α)}

theorem erase_eq_ident (h : e.erase = .ident () name) : ∃ note, e = .ident note name := by
  cases e <;> cases h
  exact ⟨_, rfl⟩

theorem erase_eq_selection (h : e.erase = .selection () target name) :
    ∃ note target', e = .selection note target' name ∧ target'.erase = target := by
  cases e <;> cases h
  exact ⟨_, _, rfl, rfl⟩

theorem erase_eq_arrayType (h : e.erase = .arrayType () type none) :
    ∃ note type', e = .arrayType note type' none ∧ type'.erase = type := by
  cases e with
  | arrayType _ _ size =>
    cases size <;> cases h
    exact ⟨_, _, rfl, rfl⟩
  | _ => cases h

theorem erase_eq_referenceType (h : e.erase = .referenceType () type) :
    ∃ note type', e = .referenceType note type' ∧ type'.erase = type := by
  cases e <;> cases h
  exact ⟨_, _, rfl, rfl⟩

theorem erase_eq_typeLiteral (h : e.erase = .typeLiteral () members) :
    ∃ note members', e = .typeLiteral note members' ∧ eraseMembers members' = members := by
  cases e <;> cases h
  exact ⟨_, _, rfl, rfl⟩

theorem erase_eq_field (h : m.erase = .field name type mutable) :
    ∃ type', m = .field name type' mutable ∧ type'.erase = type := by
  cases m <;> cases h
  exact ⟨_, rfl, rfl⟩

theorem erase_eq_signature (h : m.erase = .signature parameters result) :
    ∃ parameters' result', m = .signature parameters' result' ∧
      eraseParameters parameters' = parameters ∧ result'.erase = result := by
  cases m <;> cases h
  exact ⟨_, _, rfl, rfl, rfl⟩

theorem erase_eq_nested (h : m.erase = .nested name target) :
    ∃ value, m = .nested name value ∧ value.erase = target := by
  cases m <;> cases h
  exact ⟨_, rfl, rfl⟩

theorem eraseMembers_eq_nil (h : eraseMembers ms = []) : ms = [] := by
  cases ms with
  | nil => rfl
  | cons => cases h

theorem eraseMembers_eq_cons {m : Member Unit} (h : eraseMembers ms = m :: rest) :
    ∃ m' rest', ms = m' :: rest' ∧ m'.erase = m ∧ eraseMembers rest' = rest := by
  cases ms <;> cases h
  exact ⟨_, _, rfl, rfl, rfl⟩

theorem eraseParameters_eq_nil (h : eraseParameters ps = []) : ps = [] := by
  cases ps with
  | nil => rfl
  | cons => cases h

theorem eraseParameters_eq_cons {fallback : Option (Node Unit)}
    (h : eraseParameters ps = .mk name type fallback :: parameters) :
    ∃ type' fallback' rest, ps = .mk name type' fallback' :: rest ∧ type'.erase = type ∧
      eraseOption fallback' = fallback ∧ eraseParameters rest = parameters := by
  rcases ps with _ | ⟨⟨name', type', fallback'⟩, rest⟩ <;> cases h
  exact ⟨_, _, _, rfl, rfl, rfl, rfl⟩

theorem eraseOption_eq_none (h : eraseOption node = none) : node = none := by
  cases node with
  | none => rfl
  | some => cases h

theorem eraseOption_eq_some (h : eraseOption node = some type) :
    ∃ e, node = some e ∧ e.erase = type := by
  cases node <;> cases h
  exact ⟨_, rfl, rfl⟩

end Inversion

theorem parts_eraseParameters (ps : List (Parameter α)) :
    (eraseParameters ps).flatMap Parameter.parts = (ps.flatMap Parameter.parts).map Node.erase := by
  induction ps with
  | nil => rfl
  | cons p ps ih =>
    obtain ⟨name, type, fallback⟩ := p
    cases fallback <;> simp [eraseParameters, Parameter.erase, Parameter.parts, Parameter.type,
      Parameter.fallback, eraseOption, ih]

theorem parts_eraseMembers (ms : List (Member α)) :
    (eraseMembers ms).flatMap Member.parts = (ms.flatMap Member.parts).map Node.erase := by
  induction ms with
  | nil => rfl
  | cons m ms ih =>
    cases m <;> simp [eraseMembers, Member.erase, Member.parts, parts_eraseParameters, ih]

theorem toList_eraseOption (e : Option (Node α)) : (eraseOption e).toList = e.toList.map Node.erase := by
  cases e <;> rfl

theorem children_erase (e : Node α) : e.erase.children = e.children.map Node.erase := by
  cases e <;>
    simp [Node.erase, Node.children, eraseAll_eq, toList_eraseOption, parts_eraseMembers]

theorem preorder_erase (e : Node α) : e.erase.preorder = e.preorder.map Node.erase := by
  induction e using children_induction with
  | h e ih =>
    rw [preorder_eq, preorder_eq e, children_erase, preorderOf_eq_flatMap, preorderOf_eq_flatMap,
      List.flatMap_map, List.map_cons, List.map_flatMap, List.flatMap_congr ih]

theorem preorderOf_erase (nodes : List (Node α)) :
    preorderOf (eraseAll nodes) = (preorderOf nodes).map Node.erase := by
  simp only [preorderOf_eq_flatMap, eraseAll_eq, List.flatMap_map, List.map_flatMap, preorder_erase]

theorem bindingsOf_erase (nodes : List (Node α)) :
    bindingsOf (eraseAll nodes) = (bindingsOf nodes).map Node.erase := by
  induction nodes using bindings_induction with
  | nil => rfl
  | group note items rest hitems hrest =>
    simp [eraseAll, bindingsOf, Node.erase, Node.bindings, hitems, hrest]
  | cons e rest hne he ih =>
    have herase : e.erase.bindings = [e.erase] := by
      cases e with
      | sequence note items => exact absurd rfl (hne note items)
      | _ => rfl
    simp [eraseAll, bindingsOf, he, herase, ih]

theorem bindings_erase (e : Node α) : e.erase.bindings = e.bindings.map Node.erase := by
  simpa [eraseAll, bindingsOf] using bindingsOf_erase [e]

/-- An array type with a size. -/
def Node.isSized : Node α → Bool
  | .arrayType _ _ (some _) => true
  | _ => false

@[simp] theorem isSized_erase (e : Node α) : e.erase.isSized = e.isSized := by
  cases e with
  | arrayType _ _ size => cases size <;> rfl
  | _ => rfl

/-- Whether a node is read as a type literal, around which there may be sequences of one item. -/
def Node.isLiteralType : Node α → Bool
  | .typeLiteral .. => true
  | .sequence _ [only] => only.isLiteralType
  | _ => false

/-- A binding that declares a type or extends one. -/
def Node.declares : Node α → Bool
  | .definition _ false _ none (some value) => value.isLiteralType
  | .extension .. => true
  | _ => false

/-- Items in pairs that nest to the right. -/
def paired : Node Unit → List (Node Unit) → Node Unit
  | first, [] => first
  | first, second :: rest => .sequence () [first, paired second rest]

/-- The items of a sequence as one node; a single item stands for itself. -/
def grouped : List (Node Unit) → Node Unit
  | [] => .sequence () []
  | first :: rest => paired first rest

mutual

/-- The shape of a tree whose sequences are grouped. -/
def Node.shape : Node α → Node Unit
  | .literal _ value => .literal () value
  | .ident _ name => .ident () name
  | .selection _ target member => .selection () target.shape member
  | .call _ target arguments => .call () target.shape (shapes arguments)
  | .namedArgument _ name value => .namedArgument () name value.shape
  | .sequence _ items => grouped (shapes items)
  | .definition _ mutable name ascription value =>
      .definition () mutable name (shapeOption ascription) (shapeOption value)
  | .typeLiteral _ members => .typeLiteral () (memberShapes members)
  | .arrayType _ element size => .arrayType () element.shape (shapeOption size)
  | .referenceType _ referent => .referenceType () referent.shape
  | .extension _ target members => .extension () target.shape (memberShapes members)

def shapes : List (Node α) → List (Node Unit)
  | [] => []
  | node :: rest => node.shape :: shapes rest

def shapeOption : Option (Node α) → Option (Node Unit)
  | none => none
  | some node => some node.shape

def Member.shape : Member α → Member Unit
  | .field name type mutable => .field name type.shape mutable
  | .signature parameters result => .signature (parameterShapes parameters) result.shape
  | .nested name value => .nested name value.shape

def memberShapes : List (Member α) → List (Member Unit)
  | [] => []
  | member :: rest => member.shape :: memberShapes rest

def Parameter.shape : Parameter α → Parameter Unit
  | .mk name type fallback => .mk name type.shape (shapeOption fallback)

def parameterShapes : List (Parameter α) → List (Parameter Unit)
  | [] => []
  | parameter :: rest => parameter.shape :: parameterShapes rest

end

theorem shapes_eq (nodes : List (Node α)) : shapes nodes = nodes.map Node.shape := by
  induction nodes with
  | nil => rfl
  | cons node rest ih => simp [shapes, ih]

theorem bindings_paired (first : Node Unit) (rest : List (Node Unit)) :
    (paired first rest).bindings = bindingsOf (first :: rest) := by
  induction rest generalizing first with
  | nil => simp [paired, bindingsOf]
  | cons second rest ih => simp [paired, Node.bindings, bindingsOf, ih]

theorem bindings_grouped (items : List (Node Unit)) :
    (grouped items).bindings = bindingsOf items := by
  cases items with
  | nil => rfl
  | cons first rest => exact bindings_paired first rest

theorem bindingsOf_shapes (nodes : List (Node α)) :
    bindingsOf (shapes nodes) = (bindingsOf nodes).map Node.shape := by
  induction nodes using bindings_induction with
  | nil => rfl
  | group note items rest hitems hrest =>
    simp [shapes, bindingsOf, Node.shape, bindings_grouped, Node.bindings, hitems, hrest]
  | cons e rest hne he ih =>
    have hshape : e.shape.bindings = [e.shape] := by
      cases e with
      | sequence note items => exact absurd rfl (hne note items)
      | _ => rfl
    simp [shapes, bindingsOf, he, hshape, ih]

theorem any_isSized_paired (first : Node Unit) (rest : List (Node Unit)) :
    (paired first rest).preorder.any Node.isSized = (preorderOf (first :: rest)).any Node.isSized := by
  induction rest generalizing first with
  | nil => simp [paired, preorderOf]
  | cons second rest ih =>
    simp [paired, Node.preorder, preorderOf, Node.isSized, ih]

theorem any_isSized_grouped (items : List (Node Unit)) :
    (grouped items).preorder.any Node.isSized = (preorderOf items).any Node.isSized := by
  cases items with
  | nil => rfl
  | cons first rest => exact any_isSized_paired first rest

theorem parts_parameterShapes (ps : List (Parameter α)) :
    (parameterShapes ps).flatMap Parameter.parts = (ps.flatMap Parameter.parts).map Node.shape := by
  induction ps with
  | nil => rfl
  | cons p ps ih =>
    obtain ⟨name, type, fallback⟩ := p
    cases fallback <;> simp [parameterShapes, Parameter.shape, Parameter.parts, Parameter.type,
      Parameter.fallback, shapeOption, ih]

theorem parts_memberShapes (ms : List (Member α)) :
    (memberShapes ms).flatMap Member.parts = (ms.flatMap Member.parts).map Node.shape := by
  induction ms with
  | nil => rfl
  | cons m ms ih =>
    cases m <;> simp [memberShapes, Member.shape, Member.parts, parts_parameterShapes, ih]

theorem toList_shapeOption (e : Option (Node α)) : (shapeOption e).toList = e.toList.map Node.shape := by
  cases e <;> rfl

theorem children_shape {e : Node α} (h : ∀ note items, e ≠ .sequence note items) :
    e.shape.isSized = e.isSized ∧ e.shape.children = e.children.map Node.shape := by
  cases e with
  | sequence note items => exact absurd rfl (h note items)
  | arrayType _ _ size => cases size <;> exact ⟨rfl, rfl⟩
  | _ =>
    exact ⟨rfl, by simp [Node.shape, Node.children, shapes_eq, toList_shapeOption, parts_memberShapes]⟩

theorem any_isSized_shape (e : Node α) :
    e.shape.preorder.any Node.isSized = e.preorder.any Node.isSized := by
  induction e using children_induction with
  | h e ih =>
    have hbelow : (preorderOf (e.children.map Node.shape)).any Node.isSized =
        (preorderOf e.children).any Node.isSized := by
      have hmap := congrArg (List.any · id) (List.map_congr_left ih)
      simpa [preorderOf_eq_flatMap, List.any_flatMap, List.any_map, Function.comp_def] using hmap
    by_cases hseq : ∃ note items, e = .sequence note items
    · obtain ⟨note, items, rfl⟩ := hseq
      rw [Node.shape, any_isSized_grouped, shapes_eq, preorder_eq, List.any_cons]
      exact hbelow
    · obtain ⟨hsized, hchildren⟩ := children_shape fun note items he => hseq ⟨note, items, he⟩
      rw [preorder_eq e, preorder_eq e.shape, List.any_cons, List.any_cons, hsized, hchildren, hbelow]

theorem any_isSized_shapes (nodes : List (Node α)) :
    (preorderOf (shapes nodes)).any Node.isSized = (preorderOf nodes).any Node.isSized := by
  simp only [preorderOf_eq_flatMap, shapes_eq, List.flatMap_map, List.any_flatMap, any_isSized_shape]

theorem any_isSized_bindingsOf (nodes : List (Node α)) :
    (preorderOf (bindingsOf nodes)).any Node.isSized = (preorderOf nodes).any Node.isSized := by
  induction nodes using bindings_induction with
  | nil => rfl
  | group note items rest hitems hrest =>
    simp [bindingsOf, preorderOf, Node.bindings, Node.preorder, Node.isSized, hitems, hrest]
  | cons e rest hne he ih => simp [bindingsOf, preorderOf, he, ih]

/-- A binding of a numbered tree that declares a type or extends one. -/
def Node.isDeclaration : Node α → Bool
  | .extension .. => true
  | e => e.declaredMembers?.isSome

theorem isLiteralType_shape : (e : Node α) →
    (e.isLiteralType = true ∧ ∃ members, e.shape = .typeLiteral () members) ∨
      (e.isLiteralType = false ∧ ∀ members, e.shape ≠ .typeLiteral () members)
  | .typeLiteral _ members => .inl ⟨rfl, _, rfl⟩
  | .sequence _ [only] => by
    simpa [Node.isLiteralType, Node.shape, shapes, grouped, paired] using isLiteralType_shape only
  | .sequence _ [] | .sequence _ (_ :: _ :: _) => .inr ⟨rfl, nofun⟩
  | .literal .. | .ident .. | .selection .. | .call .. | .namedArgument .. | .definition ..
  | .arrayType .. | .referenceType .. | .extension .. => .inr ⟨rfl, nofun⟩

theorem isDeclaration_shape (e : Node α) (h : ∀ note items, e ≠ .sequence note items) :
    e.shape.isDeclaration = e.declares := by
  cases e with
  | sequence note items => exact absurd rfl (h note items)
  | definition _ mutable _ ascription value =>
    cases mutable <;> cases ascription <;> try rfl
    cases value with
    | none => rfl
    | some value =>
      rcases isLiteralType_shape value with ⟨htrue, members, hmembers⟩ | ⟨hfalse, hne⟩
      · simp [Node.shape, shapeOption, hmembers, Node.isDeclaration, Node.declaredMembers?,
          Node.declares, htrue]
      · simp only [Node.shape, shapeOption, Node.isDeclaration, Node.declares, hfalse]
        cases hshape : value.shape with
        | typeLiteral _ members => exact absurd hshape (hne members)
        | _ => rfl
  | _ => rfl

theorem ne_sequence_of_mem_bindingsOf {b : Node α} (nodes : List (Node α)) (hb : b ∈ bindingsOf nodes) :
    ∀ note items, b ≠ .sequence note items := by
  induction nodes using bindings_induction with
  | nil => cases hb
  | group note items rest hitems hrest => exact (List.mem_append.mp hb).elim hitems hrest
  | cons e rest hne he ih =>
    rw [bindingsOf, he] at hb
    rcases List.mem_cons.mp hb with rfl | hb
    · exact hne
    · exact ih hb

theorem bindingsOf_eq_flatMap (nodes : List (Node α)) :
    bindingsOf nodes = nodes.flatMap Node.bindings := by
  induction nodes with
  | nil => rfl
  | cons node rest ih => simp [bindingsOf, ih]

/-- Anything but a sequence without items. -/
def Node.isFilled : Node α → Bool
  | .sequence _ [] => false
  | _ => true

end Binder.Tree
