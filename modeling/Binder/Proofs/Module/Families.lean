import Binder.Proofs.Module.Inferring

/-! Families of passes. A family that has the operations with which types are declared, resolved and
filled, and with passes also their sequence, has the passes that make the types of a module. What such
passes keep, or what they are made of, is thus to be shown for the operations only. -/
namespace Binder

open Binder.Tree (Expr Mark)

/-- A fault that can only be told once everything else is done. -/
def Fault.isLeftover : Fault → Bool
  | .cannotInfer _ | .unresolvedType => true
  | _ => false

namespace Build

/-- The operations that types are made with. Types may be nested in builders that are `Own`, as are
those that have just been opened. -/
structure Family (C : {α : Type} → Build α → Prop) (Own : BuilderId → Prop) : Prop where
  pure {α : Type} (a : α) : C (pure a)
  bind {α β : Type} {p : Build α} {f : α → Build β} : C p → (∀ a, C (f a)) → C (p >>= f)
  /-- the context is read, but for the expressions in it -/
  read {α : Type} {f : Context → Build α} : (∀ c xs, f { c with expressions := xs } = f c) →
    (∀ c, C (f c)) → C (get >>= f)
  report (span : Span) {fault : Fault} : fault.isLeftover = false → C (report span fault)
  fold (e : Expr) : C (fold e)
  newSymbol (name : String) : C (newSymbol name)
  newAnonymous (kind : TypeKind) : C (newAnonymous kind)
  pledge (e : Expr) (s : SymbolId) : C (modify fun c => { c with fallbacks := c.fallbacks ++ [(e, s)] })
  write {α : Type} (id : BuilderId) (missing : α) {f : TypeBuilder → α × TypeBuilder} :
    (∀ b, (f b).2.nested = b.nested) → C (withBuilder id missing f)
  newBuilder {β : Type} {f : BuilderId → Build β} (symbol : SymbolId) (container : Option SymbolId)
    (scope : Option BuilderId) : (∀ id, Own id → C (f id)) → C (newBuilder symbol container scope >>= f)
  addNested {id : BuilderId} (symbol : SymbolId) (child : BuilderId) : Own id →
    C (withBuilder id () fun b => ((), b.addNested symbol child))
  finishType (id : BuilderId) : C (finishType id)

namespace Family

variable {C : {α : Type} → Build α → Prop} {Own : BuilderId → Prop} {α β : Type} {id : BuilderId}

theorem forM (h : Family C Own) {f : α → Build Unit} (l : List α) (hf : ∀ a, C (f a)) : C (l.forM f) := by
  induction l with
  | nil => exact h.pure ()
  | cons a l ih => exact h.bind (hf a) fun _ => ih

theorem mapM (h : Family C Own) {f : α → Build β} (l : List α) (hf : ∀ a, C (f a)) : C (l.mapM f) := by
  induction l with
  | nil => exact h.pure []
  | cons a l ih =>
    rw [List.mapM_cons]
    exact h.bind (hf a) fun b => h.bind ih fun bs => h.pure (b :: bs)

theorem reject (h : Family C Own) (span : Span) {fault : Fault} (hfault : fault.isLeftover = false) :
    C (reject span fault) := h.bind (h.report span hfault) fun _ => h.pure _

theorem declareNested (h : Family C Own) (hid : Own id) (members : List (Tree.Member Mark)) :
    C (declareNested id members) := by
  fun_induction Build.declareNested id members with
  | case1 => exact h.pure _
  | case2 id name note inner rest ih₁ ih₂ =>
    apply h.read (fun _ _ => rfl)
    intro c
    apply h.bind (h.newSymbol name)
    intro symbol
    apply h.bind (h.write id false fun _ => rfl)
    intro inserted
    split
    · apply h.newBuilder
      intro child hchild
      apply h.bind (h.addNested symbol child hid)
      intro _
      apply h.bind (ih₁ child hchild)
      intro inside
      exact h.bind (ih₂ hid) fun plans => h.pure _
    · apply h.bind (h.report _ rfl)
      intro _
      exact h.bind (ih₂ hid) fun plans => h.pure _
  | case3 id name value rest hvalue ih => exact h.bind (h.report _ rfl) fun _ => ih hid
  | case4 id member rest hnested hmember ih => exact ih hid

theorem finishTypes (h : Family C Own) (id : BuilderId) : C (finishTypes id) :=
  h.read (fun _ _ => rfl) fun _ => h.forM _ h.finishType

mutual

theorem resolveType (h : Family C Own) : (e : Expr) → ∀ (scope : Option BuilderId),
    C (resolveType scope e)
  | .ident note name, scope => by
    rw [Build.resolveType, Build.resolveTypeBy]
    apply h.read (fun _ _ => rfl)
    intro c
    split
    · exact h.pure _
    · split
      · exact h.pure _
      · exact h.reject _ rfl
      · exact h.reject _ rfl
  | .selection note target member, scope => by
    rw [Build.resolveType, Build.resolveTypeBy]
    apply h.bind (h.resolveType target scope)
    intro s
    apply h.read (fun _ _ => rfl)
    intro c
    split
    · exact h.pure _
    · split
      · exact h.pure _
      · exact h.reject _ rfl
  | .arrayType note element size, scope => by
    rw [Build.resolveType, Build.resolveTypeBy]
    apply h.bind (h.resolveType element scope)
    intro s
    cases size with
    | none => exact h.newAnonymous _
    | some size =>
      apply h.bind (h.fold size)
      intro constant
      split
      · split
        · exact h.newAnonymous _
        · exact h.reject _ rfl
      · exact h.reject _ rfl
  | .referenceType note referent, scope => by
    rw [Build.resolveType, Build.resolveTypeBy]
    exact h.bind (h.resolveType referent scope) fun _ => h.newAnonymous _
  | .typeLiteral note members, scope => by
    rw [Build.resolveType, Build.resolveTypeBy]
    apply h.bind (h.newSymbol "")
    intro symbol
    apply h.newBuilder
    intro id hid
    apply h.bind (h.declareNested hid members)
    intro plans
    apply h.bind (h.populate members id none)
    intro _
    apply h.bind (h.populateNested members plans)
    intro _
    exact h.bind (h.finishTypes id) fun _ => h.pure _
  | .literal .., _ | .call .., _ | .namedArgument .., _ | .sequence .., _ | .definition .., _
  | .extension .., _ => by
    simp only [Build.resolveType, Build.resolveTypeBy]
    exact h.reject _ rfl
termination_by e => sizeOf e

theorem populate (h : Family C Own) : (members : List (Tree.Member Mark)) → ∀ (id : BuilderId)
    (receiver : Option SymbolId), C (populate id receiver members)
  | [], id, receiver => by
    rw [Build.populate, Build.populateBy]
    exact h.pure _
  | .field name type mutable :: rest, id, receiver => by
    rw [Build.populate, Build.populateBy]
    apply h.bind (h.resolveType type (some id))
    intro s
    apply h.bind (h.write id false fun b => (TypeBuilder.of_outline_eq (b.outline_addMember _)).2.2.2)
    intro inserted
    split
    · exact h.populate rest id receiver
    · exact h.bind (h.report _ rfl) fun _ => h.populate rest id receiver
  | .signature parameters result :: rest, id, receiver => by
    rw [Build.populate, Build.populateBy]
    apply h.bind (h.resolveParameters parameters id [])
    intro ps
    apply h.bind (h.resolveType result (some id))
    intro s
    exact h.bind (h.write id () fun _ => rfl) fun _ => h.populate rest id receiver
  | .nested name value :: rest, id, receiver => by
    rw [Build.populate, Build.populateBy]
    exact h.populate rest id receiver
termination_by members => sizeOf members

theorem resolveParameters (h : Family C Own) : (parameters : List (Tree.Parameter Mark)) →
    ∀ (id : BuilderId) (names : List String), C (resolveParameters id names parameters)
  | [], id, names => by
    rw [Build.resolveParameters, Build.resolveParametersBy]
    exact h.pure _
  | .mk name type fallback :: rest, id, names => by
    rw [Build.resolveParameters, Build.resolveParametersBy]
    apply h.bind (h.resolveType type (some id))
    intro s
    split
    · exact h.bind (h.report _ rfl) fun _ => h.resolveParameters rest id names
    · have hrest := h.resolveParameters rest id (name :: names)
      cases fallback with
      | none => exact h.bind hrest fun _ => h.pure _
      | some e => exact h.bind (h.pledge e s) fun _ => h.bind hrest fun _ => h.pure _
termination_by parameters => sizeOf parameters

theorem populateNested (h : Family C Own) (members : List (Tree.Member Mark)) (plans : List Plan) :
    C (populateNested members plans) := by
  match members with
  | [] =>
    rw [Build.populateNested, Build.populateNestedBy]
    exact h.pure _
  | m :: rest =>
    rw [populateNested_cons]
    split
    next name note inner symbol child inside plans =>
      apply h.bind (h.populate inner child none)
      intro _
      exact h.bind (h.populateNested inner inside) fun _ => h.populateNested rest plans
    next => exact h.populateNested rest _
    next => exact h.populateNested rest _
termination_by sizeOf members

end

theorem makeTypes (h : Family C Own) (hown : ∀ id, Own id)
    (hextended : C (modify fun c => { c with extensions := [] })) : C makeTypes := by
  have hdeclare : C declareTypes := by
    apply h.read (fun _ _ => rfl)
    intro c
    apply h.bind
    · apply h.mapM
      intro d
      apply h.newBuilder
      intro id hid
      exact h.bind (h.declareNested hid d.members) fun plans => h.pure _
    · intro opened
      apply h.bind
      · apply h.forM
        rintro ⟨id, members, plans⟩
        exact h.bind (h.populate members id none) fun _ => h.populateNested members plans
      · exact fun _ => h.pure _
  have hextend : C extendTypes := by
    apply h.read (fun _ _ => rfl)
    intro c
    apply h.bind hextended
    intro _
    apply h.forM
    intro x
    apply h.bind (h.resolveType x.target none)
    intro target
    apply h.read (fun _ _ => rfl)
    intro c
    split
    · exact h.pure _
    · split
      next id _ _ =>
        apply h.bind (h.declareNested (hown id) x.members)
        intro plans
        exact h.bind (h.populate x.members id (some target)) fun _ => h.populateNested x.members plans
      · exact h.report _ rfl
  rw [makeTypes_eq]
  exact h.bind hdeclare fun outermost => h.bind hextend fun _ => h.forM outermost h.finishTypes

theorem inferValue (h : Family C Own) (hunify : ∀ a b, C (withInference fun s => Inference.unify s a b))
    (hruns : ∀ ts, C (runs ts)) (v : ModuleValue) : C (inferValue v) := by
  rw [Build.inferValue, inferValueBy_eq]
  apply h.bind ?_ fun _ => hruns _
  unfold ascribeBy
  split
  · exact h.bind (h.resolveType _ none) fun ascribed => h.bind (hunify _ ascribed) fun _ => h.pure ()
  · exact h.pure ()

end Family

section Preserving

variable {α β : Type} {P : Context → Prop}

/-- Where a pass ends, a property of contexts still holds. -/
structure Preserves (P : Context → Prop) (p : Build α) : Prop where
  at_end : ∀ {c a c'}, P c → p c = .ok a c' → P c'

namespace Preserves

theorem pure (a : α) : Preserves P (pure a : Build α) := by
  constructor
  intro c a c' h heq
  cases heq
  exact h

theorem get : Preserves P (get : Build Context) := by
  constructor
  intro c a c' h heq
  cases heq
  exact h

theorem bind {p : Build α} {f : α → Build β} (hp : Preserves P p) (hf : ∀ a, Preserves P (f a)) :
    Preserves P (p >>= f) := by
  constructor
  intro c b c' h heq
  obtain ⟨a, c₁, hc₁, hrest⟩ := exists_of_bind_ok heq
  exact (hf a).at_end (hp.at_end h hc₁) hrest

theorem modify {f : Context → Context} (h : ∀ c, P c → P (f c)) :
    Preserves P (modify f : Build Unit) := by
  constructor
  intro c a c' hc heq
  cases heq
  exact h c hc

theorem modifyGet {f : Context → α × Context} (h : ∀ c, P c → P (f c).2) :
    Preserves P (modifyGet f : Build α) := by
  constructor
  intro c a c' hc heq
  cases heq
  exact h c hc

theorem forM {f : α → Build Unit} (l : List α) (h : ∀ a ∈ l, Preserves P (f a)) :
    Preserves P (l.forM f) := by
  induction l with
  | nil => exact pure ()
  | cons a l ih =>
    apply bind (h a List.mem_cons_self)
    intro _
    exact ih fun b hb => h b (List.mem_cons_of_mem a hb)

theorem withInference {f : Inference.State → Inference.Outcome α}
    (h : ∀ c, P c → P { c with inference := (f c.inference).1 }) : Preserves P (withInference f) := by
  constructor
  intro c a c' hc heq
  unfold Build.withInference at heq
  split at heq
  next s a' hs =>
    cases heq
    have hc' := h c hc
    rwa [hs] at hc'
  next => cases heq

theorem withBuilder {id : BuilderId} {missing : α} {f : TypeBuilder → α × TypeBuilder}
    (h : ∀ c b, c.builders[id.index]? = some b → P c →
      P (c.setBuilders (c.builders.setIfInBounds id.index (f b).2))) :
    Preserves P (withBuilder id missing f) := by
  apply modifyGet
  intro c hc
  split
  next b hb => exact h c b hb hc
  next => exact hc

end Preserves

end Preserving

end Build
end Binder
