import Binder.Module.Context

/-! Resolving type expressions and filling the builders of type literals. The nested types of a
literal are all declared before any of its members is resolved. -/
namespace Binder.Build

open Binder.Tree (Expr Mark)

/-- What became of the nested type literals among some members, in their order. -/
inductive Plan where
  | refused
  | accepted (symbol : SymbolId) (builder : BuilderId) (inside : List Plan)

/-- Declares the nested types of a literal, and in turn those within them. -/
def declareNested (id : BuilderId) : List (Tree.Member Mark) → Build (List Plan)
  | [] => return []
  | .nested name (.typeLiteral note inner) :: rest => do
      let container := ((← get).builders[id.index]?).map TypeBuilder.symbol
      let symbol ← newSymbol name
      if ← withBuilder id false fun b => b.addType ⟨name, symbol⟩ then
        let child ← newBuilder symbol container (some id)
        withBuilder id () fun b => ((), b.addNested symbol child)
        let inside ← declareNested child inner
        return .accepted symbol child inside :: (← declareNested id rest)
      else
        report note.span .duplicateSymbol
        return .refused :: (← declareNested id rest)
  | .nested _ value :: rest => do
      report value.span .expectedTypeLiteral
      declareNested id rest
  | _ :: rest => declareNested id rest
termination_by members => sizeOf members
decreasing_by
  · simp only [List.cons.sizeOf_spec, Tree.Member.nested.sizeOf_spec,
      Tree.Node.typeLiteral.sizeOf_spec]
    omega
  all_goals
    simp only [List.cons.sizeOf_spec]
    omega

/-- A builder and the builders nested in it down to `depth` levels, each after those within it. -/
def innermostFirst (builders : Array TypeBuilder) : (depth : Nat) → BuilderId → List BuilderId
  | 0, _ => []
  | depth + 1, id =>
      let nested := ((builders[id.index]?).map TypeBuilder.nested).getD []
      nested.flatMap (fun child => innermostFirst builders depth child.2) ++ [id]

/-- Makes the type of one builder. -/
def finishType (id : BuilderId) : Build Unit := do
  match (← get).builders[id.index]? with
  | none => return ()
  | some builder =>
      let b ← withGraph fun g =>
        let (_, g, b) := builder.build g
        (b, g)
      withBuilder id () fun _ => ((), b)
      withInference fun s => Inference.bound s builder.symbol

/-- Makes the types of a builder and of all builders nested in it. -/
def finishTypes (id : BuilderId) : Build Unit := do
  let builders := (← get).builders
  (innermostFirst builders builders.size id).forM finishType

/-- What is left open while types are resolved. On the way into type literals some knowledge `κ` of them
is kept, with which names are looked for before the scope of the module decides. -/
structure Resolver (κ : Type) where
  /-- what is known outside of all literals -/
  outside : κ
  /-- what is known within one more literal -/
  within : κ → List (Tree.Member Mark) → List Plan → κ
  /-- what is known within a builder of the declared types -/
  inside : List (BuilderId × List (Tree.Member Mark) × List Plan) → BuilderId → κ
  find? : κ → Option BuilderId → Context → String → Option SymbolId
  /-- makes the types of a literal that has been filled -/
  finish : BuilderId → Build Unit

/-- Builders know the types that are nested in them, so nothing else is kept. -/
abbrev Resolver.asking (finish : BuilderId → Build Unit) : Resolver Unit where
  outside := ()
  within _ _ _ := ()
  inside _ _ := ()
  find? _ scope c name := c.findEnclosed? scope name
  finish := finish

abbrev Resolver.live : Resolver Unit := .asking finishTypes

variable {κ : Type}

mutual

/-- The symbol of a type expression seen from within a builder. Whatever cannot be resolved is
reported and stands for the error type. -/
def resolveTypeBy (r : Resolver κ) (around : κ) (scope : Option BuilderId) : Expr → Build SymbolId
  | .ident note name => do
      let c ← get
      match r.find? around scope c name with
      | some symbol => return symbol
      | none =>
          match c.find? name with
          | some (.type entry) => return entry.symbol
          | some (.value _) => reject note.span .expectedType
          | none => reject note.span .symbolNotFound
  | .selection note target member => do
      let target ← resolveTypeBy r around scope target
      let c ← get
      if c.graph.isError target then return target
      else match c.findNested? target member with
        | some symbol => return symbol
        | none => reject note.span .memberNotFound
  | .arrayType _ element size => do
      let elements ← resolveTypeBy r around scope element
      match size with
      | none => newAnonymous (.array elements none)
      | some size =>
          match ← fold size with
          | .known (.int n) =>
              if 0 ≤ n.toInt then newAnonymous (.array elements (some n.toInt.toNat))
              else reject size.span .invalidArraySize
          | _ => reject size.span .invalidArraySize
  | .referenceType _ referent => do
      let referent ← resolveTypeBy r around scope referent
      newAnonymous (.reference referent)
  | .typeLiteral _ members => do
      let symbol ← newSymbol ""
      let id ← newBuilder symbol none scope
      let plans ← declareNested id members
      let here := r.within around members plans
      populateBy r here id none members
      populateNestedBy r here members plans
      r.finish id
      return symbol
  | e => reject e.span .expectedType

/-- Adds the fields and signatures of a literal to a builder. -/
def populateBy (r : Resolver κ) (around : κ) (id : BuilderId) (receiver : Option SymbolId) :
    List (Tree.Member Mark) → Build Unit
  | [] => return ()
  | .field name type mutable :: rest => do
      let symbol ← resolveTypeBy r around (some id) type
      unless ← withBuilder id false fun b => b.addMember ⟨name, symbol, .field mutable⟩ do
        report type.span .duplicateSymbol
      populateBy r around id receiver rest
  | .signature parameters result :: rest => do
      let parameters ← resolveParametersBy r around id [] parameters
      let result ← resolveTypeBy r around (some id) result
      withBuilder id () fun b => ((), b.addSignature ⟨receiver, parameters, result⟩)
      populateBy r around id receiver rest
  | .nested _ _ :: rest => populateBy r around id receiver rest

/-- Resolves parameters whose names must differ from each other and from those before. -/
def resolveParametersBy (r : Resolver κ) (around : κ) (id : BuilderId) (names : List String) :
    List (Tree.Parameter Mark) → Build (List Parameter)
  | [] => return []
  | .mk name type fallback :: rest => do
      let symbol ← resolveTypeBy r around (some id) type
      if name ∈ names then
        report type.span .duplicateSymbol
        resolveParametersBy r around id names rest
      else
        if let some e := fallback then
          modify fun c => { c with fallbacks := c.fallbacks ++ [(e, symbol)] }
        return ⟨name, symbol, fallback⟩ ::
          (← resolveParametersBy r around id (name :: names) rest)

/-- Fills the builders of the nested types that were accepted. -/
def populateNestedBy (r : Resolver κ) (around : κ) : List (Tree.Member Mark) → List Plan → Build Unit
  | [], _ => return ()
  | .nested _ (.typeLiteral _ inner) :: rest, .accepted _ child inside :: plans => do
      let there := r.within around inner inside
      populateBy r there child none inner
      populateNestedBy r there inner inside
      populateNestedBy r around rest plans
  | .nested _ (.typeLiteral _ _) :: rest, .refused :: plans =>
      populateNestedBy r around rest plans
  | _ :: rest, plans => populateNestedBy r around rest plans

end

abbrev resolveType (scope : Option BuilderId) (e : Expr) : Build SymbolId :=
  resolveTypeBy .live () scope e

abbrev populate (id : BuilderId) (receiver : Option SymbolId) (members : List (Tree.Member Mark)) :
    Build Unit := populateBy .live () id receiver members

abbrev resolveParameters (id : BuilderId) (names : List String)
    (parameters : List (Tree.Parameter Mark)) : Build (List Parameter) :=
  resolveParametersBy .live () id names parameters

abbrev populateNested (members : List (Tree.Member Mark)) (plans : List Plan) : Build Unit :=
  populateNestedBy .live () members plans

end Binder.Build
