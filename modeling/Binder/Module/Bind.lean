import Binder.Module.Resolve
import Binder.Tree.Walk

/-! Binding a module. Entering declares the types of the top level, so that they can be used before
they are written. Building then declares the values, fills and extends the types, infers the types
of all values, folds constants, and ends with the type of the module itself. -/
namespace Binder.Build

open Binder.Tree (Expr Mark)

variable {κ : Type}

/-- Sorts a top-level binding; one that declares a type is declared at once. -/
def enterBinding (e : Expr) : Build Unit := do
  match e with
  | .definition note mutable name ascription value =>
      match e.declaredMembers? with
      | some members =>
          let symbol ← newSymbol name
          if ← enterScope (.type ⟨name, symbol⟩) then
            modify fun c => { c with declared := c.declared ++ [⟨⟨name, symbol⟩, members⟩] }
          else report note.span .duplicateSymbol
      | none =>
          modify fun c => { c with
            definitions := c.definitions ++ [⟨note, mutable, name, ascription, value⟩] }
  | .extension _ target members =>
      modify fun c => { c with extensions := c.extensions ++ [⟨target, members⟩] }
  | e => modify fun c => { c with expressions := c.expressions ++ [e] }

def enter (root : Expr) : Build Unit := do
  match (← get).stage with
  | .unbound =>
      root.bindings.forM enterBinding
      modify fun c => { c with stage := .entered }
  | .entered => throw .alreadyEntered
  | .built => throw .alreadyBuilt

/-- Declares a value under a fresh symbol, unless its name is taken. -/
def declareValue (d : Definition) : Build Unit := do
  let symbol ← newSymbol ""
  let member : Member := ⟨d.name, symbol, if d.mutable then .field true else .value⟩
  if ← enterScope (.value member) then
    modify fun c => { c with values := c.values ++ [⟨d, member⟩] }
  else report d.node.span .duplicateSymbol

/-- Declares the values and freezes the scope of the module. -/
def declareValues : Build Unit := do
  let definitions := (← get).definitions
  modify fun c => { c with definitions := [] }
  definitions.forM declareValue
  modify fun c =>
    let (root, scope) := c.scope.freeze
    { c with scope := scope, root := some root, inference := { c.inference with scope := root } }

/-- Opens the builders of a declared type and of the types nested in it. -/
def openType (d : DeclaredType) : Build (BuilderId × List (Tree.Member Mark) × List Plan) := do
  let id ← newBuilder d.entry.symbol none none
  return (id, d.members, ← declareNested id d.members)

/-- Adds the members of an extension to its type, which must be under construction. -/
def extendBy (r : Resolver κ) (inside : BuilderId → κ) (x : Extension) : Build Unit := do
  let target ← resolveTypeBy r r.outside none x.target
  let c ← get
  if c.graph.isError target then return ()
  match c.builderOf? target, c.graph.isBound target with
  | some id, false => do
      let plans ← declareNested id x.members
      populateBy r (inside id) id (some target) x.members
      populateNestedBy r (inside id) x.members plans
  | _, _ => report x.target.span (.cannotExtend (c.graph.symbolText target))

def extendTypesBy (r : Resolver κ) (inside : BuilderId → κ) : Build Unit := do
  let extensions := (← get).extensions
  modify fun c => { c with extensions := [] }
  extensions.forM (extendBy r inside)

/-- Makes the declared types. All of them are opened before any is filled. -/
def makeTypesBy (r : Resolver κ) : Build Unit := do
  let opened ← (← get).declared.mapM openType
  opened.forM fun (id, members, plans) => do
    let here := r.within r.outside members plans
    populateBy r here id none members
    populateNestedBy r here members plans
  extendTypesBy r (r.inside opened)
  (opened.map Prod.fst).forM r.finish

/-- Relates a value to its ascribed type and to its initialiser. -/
def inferValueBy (r : Resolver κ) (v : ModuleValue) : Build Unit := do
  if let some ascription := v.definition.ascription then
    let ascribed ← resolveTypeBy r r.outside none ascription
    let _ ← withInference fun s => Inference.unify s v.member.type ascribed
  if let some value := v.definition.value then
    withInference fun s => Inference.infer s value
    withInference fun s => Inference.pend s value.id (.initialise v.member.type value.span)

def inferFallback (fallback : Expr × SymbolId) : Build Unit := do
  let (e, expected) := fallback
  withInference fun s => Inference.infer s e
  withInference fun s => Inference.pendResolved s e (.compare expected e.span)

def inferAllBy (r : Resolver κ) : Build Unit := do
  (← get).values.forM (inferValueBy r)
  let fallbacks := (← get).fallbacks
  modify fun c => { c with fallbacks := [] }
  fallbacks.forM inferFallback
  let expressions := (← get).expressions
  modify fun c => { c with expressions := [] }
  expressions.forM fun e => withInference fun s => Inference.infer s e

/-- Folds an immutable value whose type is known and no error. -/
def foldValue (v : ModuleValue) : Build Unit := do
  if let some value := v.definition.value then
    unless v.member.isMutable do
      let c ← get
      if let some type := c.inference.typeOf? value.id then
        unless c.graph.isError type do
          let constant ← fold value
          if constant.isConst then
            modify fun c => { c with constants := c.constants ++ [(v.member.name, constant)] }

/-- Collects the faults of inference and folding, then those of values without a type. -/
def checkInferred : Build Unit :=
  modify fun c =>
    let s := Inference.finish c.inference
    let uninferred := c.values.filter fun v => !s.graph.isBound v.member.type
    { c with
      inference := { s with diagnostics := [] }
      foldingFaults := []
      diagnostics := c.diagnostics ++ s.diagnostics ++ c.foldingFaults ++
        uninferred.map fun v => ⟨v.definition.node.span, .cannotInfer v.member.name⟩ }

/-- Makes the type of the module from its values and declared types. -/
def finishModule : Build TypeId := do
  let c ← get
  let symbol ← newSymbol c.moduleName
  let t ← withGraph fun g => g.newType
    { symbol := symbol, kind := .module, members := c.values.map ModuleValue.member,
      typeScope := .ofList (c.declared.map DeclaredType.entry) }
  modify fun c => { c with module := some t }
  return t

/-- Binds a module. The tree is only looked at when none was entered before. -/
def buildBy (r : Resolver κ) (root : Expr) : Build TypeId := do
  match (← get).stage with
  | .unbound => enter root
  | .entered => pure ()
  | .built => throw .alreadyBuilt
  declareValues
  makeTypesBy r
  inferAllBy r
  (← get).values.forM foldValue
  checkInferred
  let t ← finishModule
  modify fun c => { c with stage := .built }
  return t

abbrev extend (x : Extension) : Build Unit := extendBy .live (fun _ => ()) x

abbrev extendTypes : Build Unit := extendTypesBy .live fun _ => ()

abbrev makeTypes : Build Unit := makeTypesBy .live

abbrev inferValue (v : ModuleValue) : Build Unit := inferValueBy .live v

abbrev inferAll : Build Unit := inferAllBy .live

abbrev build (root : Expr) : Build TypeId := buildBy .live root

end Binder.Build

namespace Binder.Context

open Binder.Tree (Expr)

/-- The context after a pass and the outcome of the pass. -/
def after {α : Type} (c : Context) (pass : Build α) : Context × Except Misuse α :=
  match pass c with
  | .ok a c => (c, .ok a)
  | .error e c => (c, .error e)

def enter (c : Context) (root : Expr) : Context × Except Misuse Unit := c.after (Build.enter root)

def build (c : Context) (root : Expr) : Context × Except Misuse TypeId :=
  c.after (Build.build root)

end Binder.Context
