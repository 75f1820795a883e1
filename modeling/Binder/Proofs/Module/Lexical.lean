import Binder.Proofs.Module.Concluding
import Binder.Proofs.Module.Tables

/-! Names of types are resolved lexically. Of a type expression, a lexical resolver keeps the literals
around it, in place of builders: the nearest one with a nested type of a name decides what it means, and
the scope of the module if there is none. Both ways to resolve come to the same, wherever the types are
declared. -/
namespace Binder

open Binder.Tree (Expr Mark)

namespace Lexical

open Build (Plan)

/-- The literals nested in a literal, each with the literals around its members. -/
def within (around : List (List (Tree.Member Mark) × List Plan)) :
    List (Tree.Member Mark) → List Plan →
      List (BuilderId × List (List (Tree.Member Mark) × List Plan))
  | [], _ => []
  | .nested _ (.typeLiteral _ inner) :: rest, .accepted _ child inside :: plans =>
      (child, (inner, inside) :: around) ::
        (within ((inner, inside) :: around) inner inside ++ within around rest plans)
  | .nested _ (.typeLiteral _ _) :: rest, .refused :: plans => within around rest plans
  | _ :: rest, plans => within around rest plans

/-- All literals of the declared types, each with the literals around its members. -/
def literals (opened : List (BuilderId × List (Tree.Member Mark) × List Plan)) :
    List (BuilderId × List (List (Tree.Member Mark) × List Plan)) :=
  opened.flatMap fun (id, members, plans) =>
    (id, [(members, plans)]) :: within [(members, plans)] members plans

end Lexical

/-- Keeps the literals around a type expression. Names in an extension mean what they mean in the literal
of the extended type. -/
def Build.Resolver.lexical : Resolver (List (List (Tree.Member Mark) × List Plan)) where
  outside := []
  within around members plans := (members, plans) :: around
  inside opened id := ((Lexical.literals opened).lookup id).getD []
  find? around _ _ name := Plan.nearest? around name
  finish := finishTypes

namespace Build

open Context

variable {α β : Type} {S S' : Nat → Prop} {c c' : Context} {id : BuilderId} {b : TypeBuilder}
  {literals : List (List (Tree.Member Mark) × List Plan)} {scope : Option BuilderId}

/-- Two passes do the same, and keep the outlines of some builders where they succeed. -/
structure Agrees (S : Nat → Prop) (p q : Build α) (c : Context) : Prop where
  eq : q c = p c
  outlines : ∀ {a c'}, p c = .ok a c' → Outlines S c c'

namespace Agrees

variable {p q : Build α} {f g : α → Build β}

theorem mono (h : Agrees S p q c) (hS : ∀ i, S' i → S i) : Agrees S' p q c :=
  ⟨h.eq, fun hp => (h.outlines hp).mono hS⟩

theorem of_lt (h : Agrees (· < c.builders.size) p q c) : Agrees S p q c :=
  ⟨h.eq, fun hp => (h.outlines hp).of_lt⟩

theorem of_ends (h : Ends p c fun _ c' => Outlines S c c') : Agrees S p p c :=
  ⟨rfl, fun hp => h.of_eq hp⟩

theorem pure (a : α) : Agrees S (pure a) (pure a) c := of_ends (Ends.pure (.refl c))

theorem bind (h : Agrees S p q c)
    (hf : ∀ {a c'}, p c = .ok a c' → Outlines S c c' → Agrees S (f a) (g a) c') :
    Agrees S (p >>= f) (q >>= g) c where
  eq := by
    cases hp : p c with
    | ok a c' =>
      rw [bind_of_ok hp, bind_of_ok (h.eq.trans hp)]
      exact (hf hp (h.outlines hp)).eq
    | error e c' => simp only [Bind.bind, EStateM.bind, h.eq, hp]
  outlines hpf := by
    obtain ⟨a, c₁, hp, hrest⟩ := exists_of_bind_ok hpf
    have ho := h.outlines hp
    exact ho.trans ((hf hp ho).outlines hrest)

theorem bind_eq (h : Agrees S p q c) (f : α → Build β) : (q >>= f) c = (p >>= f) c := by
  simp only [Bind.bind, EStateM.bind, h.eq]

theorem get_bind {f g : Context → Build β} (h : Agrees S (f c) (g c) c) :
    Agrees S (get >>= f) (get >>= g) c := ⟨h.eq, h.outlines⟩

theorem forM {f g : α → Build Unit} (l : List α)
    (h : ∀ a ∈ l, ∀ c', Outlines S c c' → Agrees S (f a) (g a) c') :
    Agrees S (l.forM f) (l.forM g) c := by
  induction l generalizing c with
  | nil => exact pure ()
  | cons a l ih =>
    apply bind (h a List.mem_cons_self c (.refl c))
    intro _ c' _ ho
    exact ih fun a ha c'' ho' => h a (List.mem_cons_of_mem _ ha) c'' (ho.trans ho')

end Agrees

theorem agrees_modify {f : Context → Context} (h : Outlines S c (f c)) :
    Agrees S (modify f) (modify f) c := .of_ends (Ends.modify h)

theorem agrees_withGraph (f : TypeGraph → α × TypeGraph) :
    Agrees S (withGraph f) (withGraph f) c := .of_ends (Ends.withGraph (.setGraph _))

theorem outlines_reject (span : Span) (fault : Fault) :
    Ends (reject span fault) c fun _ c' => Outlines S c c' :=
  Ends.bind (Ends.report (Ends.pure (.reported _)))

theorem agrees_withInference (f : Inference.State → Inference.Outcome α) :
    Agrees S (withInference f) (withInference f) c := by
  refine ⟨rfl, fun {a c'} h => ?_⟩
  simp only [withInference] at h
  split at h
  next => cases h; exact .of_eq rfl rfl
  next => cases h

theorem agrees_withBuilder {missing : α} {f : TypeBuilder → α × TypeBuilder}
    (hf : ∀ b, (f b).2.outline = b.outline) :
    Agrees S (withBuilder id missing f) (withBuilder id missing f) c := by
  cases hb : c.builders[id.index]? with
  | some b => exact .of_ends (Ends.withBuilder hb (outlines_fill hb (hf b)))
  | none =>
    refine .of_ends (Ends.modifyGet ?_)
    simp only [hb]
    exact .refl c

theorem agrees_finishType (id : BuilderId) :
    Agrees (· ≠ id.index) (finishType id) (finishType id) c := by
  apply Agrees.get_bind
  cases hb : c.builders[id.index]? with
  | none => exact .pure ()
  | some b =>
    apply (agrees_withGraph _).bind
    intro b' c₁ hgraph _
    have hb' : b' = (b.build c.graph).2.2 ∧ c₁.builders = c.builders := by
      cases hgraph
      exact ⟨rfl, rfl⟩
    apply Agrees.bind
    · rw [← hb'.2] at hb
      refine .of_ends (Ends.withBuilder hb ?_)
      exact outlines_set hb (by rw [hb'.1]; rfl)
    · intro _ c₂ _ _
      exact agrees_withInference _

theorem agrees_finishTypes (hlater : c.Later) :
    Agrees (· < id.index) (finishTypes id) (finishTypes id) c := by
  apply Agrees.get_bind
  apply Agrees.forM
  intro k hk c' _
  apply (agrees_finishType k).mono
  intro i hi
  have hle := hlater.le_of_within (within_of_mem_innermostFirst hk)
  omega

theorem resolveName_agrees (h : c.Placed literals scope) (note : Mark) (name : String) :
    Agrees S (resolveType scope (.ident note name))
      (resolveTypeBy .lexical literals scope (.ident note name)) c := by
  rw [resolveType, resolveTypeBy, resolveTypeBy]
  apply Agrees.get_bind
  dsimp only [Resolver.lexical]
  rw [findEnclosed?_eq h.sees]
  refine .of_ends ?_
  split
  next => exact Ends.pure (.refl c)
  next =>
    split
    next => exact Ends.pure (.refl c)
    next => exact outlines_reject _ _
    next => exact outlines_reject _ _

mutual

/-- Builders know what the literals around a type expression say. -/
theorem resolveType_agrees : (e : Expr) → ∀ {scope : Option BuilderId}
    {literals : List (List (Tree.Member Mark) × List Plan)} {c : Context}, c.Placed literals scope →
    Agrees (fun _ => True) (resolveType scope e) (resolveTypeBy .lexical literals scope e) c
  | .ident note name, scope, literals, c, h => by
    exact resolveName_agrees h note name
  | .selection note target member, scope, literals, c, h => by
    rw [resolveType, resolveTypeBy, resolveTypeBy]
    apply (resolveType_agrees target h).bind
    intro s c₁ _ _
    refine .of_ends (Ends.bind (Ends.get ?_))
    split
    · exact Ends.pure (.refl c₁)
    · split
      · exact Ends.pure (.refl c₁)
      · exact outlines_reject _ _
  | .arrayType note element size, scope, literals, c, h => by
    simp only [resolveType, resolveTypeBy]
    apply (resolveType_agrees element h).bind
    intro s c₁ _ _
    cases size with
    | none => exact agrees_withGraph _
    | some size =>
      refine (Agrees.of_ends (Ends.fold (.of_eq rfl rfl))).bind fun _ _ => .of_ends ?_
      split
      · split
        · exact Ends.withGraph (.setGraph _)
        · exact outlines_reject _ _
      · exact outlines_reject _ _
  | .referenceType note referent, scope, literals, c, h => by
    rw [resolveType, resolveTypeBy, resolveTypeBy]
    apply (resolveType_agrees referent h).bind
    intro s c₁ _ _
    exact agrees_withGraph _
  | .typeLiteral note members, scope, literals, c, h => by
    rw [resolveType, resolveTypeBy, resolveTypeBy]
    -- What is done for a literal concerns no builder that was there before.
    apply Agrees.of_lt
    apply (agrees_withGraph _).bind
    intro symbol c₁ hsymbol ho₁
    have hbuilders : c₁.builders = c.builders := by
      cases hsymbol
      rfl
    have haround : c₁.around scope = c.around scope := by simp only [around, hbuilders]
    apply (Agrees.of_ends (Ends.newBuilder fun b hb => outlines_push (by rw [hb]))).bind
    intro id c₂ hopen ho₂
    obtain ⟨hid, hdeclare⟩ := openLiteral_ends members hopen
    have hfresh : ∀ i, i < c.builders.size → i < id.index := by simp [hid, hbuilders]
    apply (Agrees.of_ends (hdeclare.mono fun plans c₃ h₃ =>
      h₃.1.mono fun i hi => Nat.ne_of_lt (hfresh i hi))).bind
    intro plans c₃ hplans ho₃
    obtain ⟨-, hliteral⟩ := hdeclare.of_eq hplans
    rw [haround] at hliteral
    have ho : Outlines (fun _ => True) c c₃ := ((ho₁.trans ho₂).trans ho₃).of_lt
    have hsees : c₃.Sees ((members, plans) :: literals) (id :: c.around scope) :=
      .cons ⟨_, hliteral⟩ (h.sees.outlines ho)
    have hplaced : c₃.Placed ((members, plans) :: literals) (some id) :=
      ⟨ho.later h.later, ho.root ▸ h.root, hliteral.around_eq ▸ hsees⟩
    apply ((populate_agrees members hplaced).mono fun _ _ => trivial).bind
    intro _ c₄ hpopulate _
    have ho₄ := (populate_agrees members hplaced).outlines hpopulate
    have hplaced₄ := hplaced.outlines ho₄
    have hnested := populateNested_agrees members hplaced₄.later hplaced₄.root
      (hsees.outlines ho₄) (hliteral.linked.outlines ho₄ fun _ _ => trivial)
    apply (hnested.mono fun _ _ => trivial).bind
    intro _ c₅ _ ho₅
    apply ((agrees_finishTypes (ho₅.later hplaced₄.later)).mono hfresh).bind
    intro _ c₆ _ _
    exact .pure symbol
  | .literal .., _, _, _, _ | .call .., _, _, _, _ | .namedArgument .., _, _, _, _
  | .sequence .., _, _, _, _ | .definition .., _, _, _, _ | .extension .., _, _, _, _ => by
    simp only [resolveType, resolveTypeBy]
    exact .of_ends (outlines_reject _ _)
termination_by e => sizeOf e

theorem populate_agrees : (members : List (Tree.Member Mark)) → ∀ {id : BuilderId}
    {literals : List (List (Tree.Member Mark) × List Plan)} {receiver : Option SymbolId} {c : Context},
    c.Placed literals (some id) → Agrees (fun _ => True) (populate id receiver members)
      (populateBy .lexical literals id receiver members) c
  | [], id, literals, receiver, c, h => by
    rw [populate, populateBy, populateBy]
    exact .pure ()
  | .field name type mutable :: rest, id, literals, receiver, c, h => by
    rw [populate, populateBy, populateBy]
    apply (resolveType_agrees type h).bind
    intro s c₁ _ ho₁
    apply (agrees_withBuilder fun b => b.outline_addMember _).bind
    intro inserted c₂ _ ho₂
    have h₂ := h.outlines (ho₁.trans ho₂)
    split
    · exact populate_agrees rest h₂
    · apply (Agrees.of_ends (Ends.report (.reported _))).bind
      intro _ c₃ _ ho₃
      exact populate_agrees rest (h₂.outlines ho₃)
  | .signature parameters result :: rest, id, literals, receiver, c, h => by
    rw [populate, populateBy, populateBy]
    apply (resolveParameters_agrees parameters h).bind
    intro ps c₁ _ ho₁
    apply (resolveType_agrees result (h.outlines ho₁)).bind
    intro s c₂ _ ho₂
    apply (agrees_withBuilder fun b => rfl).bind
    intro _ c₃ _ ho₃
    exact populate_agrees rest (h.outlines ((ho₁.trans ho₂).trans ho₃))
  | .nested name value :: rest, id, literals, receiver, c, h => by
    rw [populate, populateBy, populateBy]
    exact populate_agrees rest h
termination_by members => sizeOf members

theorem resolveParameters_agrees : (parameters : List (Tree.Parameter Mark)) →
    ∀ {id : BuilderId} {literals : List (List (Tree.Member Mark) × List Plan)} {names : List String}
    {c : Context}, c.Placed literals (some id) →
    Agrees (fun _ => True) (resolveParameters id names parameters)
      (resolveParametersBy .lexical literals id names parameters) c
  | [], id, literals, names, c, h => by
    rw [resolveParameters, resolveParametersBy, resolveParametersBy]
    exact .pure []
  | .mk name type fallback :: rest, id, literals, names, c, h => by
    rw [resolveParameters, resolveParametersBy, resolveParametersBy]
    apply (resolveType_agrees type h).bind
    intro s c₁ _ ho₁
    have h₁ := h.outlines ho₁
    split
    · apply (Agrees.of_ends (Ends.report (.reported _))).bind
      intro _ c₂ _ ho₂
      exact resolveParameters_agrees rest (h₁.outlines ho₂)
    · have hrest {c₂ : Context} (h₂ : c₂.Placed literals (some id)) :
          Agrees (fun _ => True)
            (do return ⟨name, s, fallback⟩ :: (← resolveParameters id (name :: names) rest))
            (do return ⟨name, s, fallback⟩ ::
              (← resolveParametersBy .lexical literals id (name :: names) rest)) c₂ :=
        (resolveParameters_agrees rest h₂).bind fun _ _ => .pure _
      cases fallback with
      | none => exact hrest h₁
      | some e =>
        apply (agrees_modify (.of_eq rfl rfl)).bind
        intro _ c₂ _ ho₂
        exact hrest (h₁.outlines ho₂)
termination_by parameters => sizeOf parameters

theorem populateNested_agrees (members : List (Tree.Member Mark)) {plans : List Plan}
    {literals : List (List (Tree.Member Mark) × List Plan)} {ids : List BuilderId} {c : Context}
    (hlater : c.Later) (hroot : c.root.isSome) (hsees : c.Sees literals ids)
    (hlinked : Linked 0 c ids members plans) :
    Agrees (fun _ => True) (populateNested members plans)
      (populateNestedBy .lexical literals members plans) c := by
  match members with
  | [] =>
    rw [populateNested, populateNestedBy, populateNestedBy]
    exact .pure ()
  | m :: rest =>
    cases hlinked with
    | refused hrest =>
      rw [populateNested, populateNestedBy, populateNestedBy]
      exact populateNested_agrees rest hlater hroot hsees hrest
    | other hother hrest =>
      rw [populateNested, populateNestedBy_skip hother, populateNestedBy_skip hother]
      exact populateNested_agrees rest hlater hroot hsees hrest
    | @accepted _ _ _ inner _ _ child inside plans b hn hb henclosing hknows hnested hinner hrest =>
      rw [populateNested, populateNestedBy, populateNestedBy]
      have hliteral : Literal child ids inner inside c := ⟨⟨b, hb, henclosing, hknows, hnested⟩, hinner⟩
      have hsees' : c.Sees ((inner, inside) :: literals) (child :: ids) := .cons ⟨ids, hliteral⟩ hsees
      have hplaced : c.Placed ((inner, inside) :: literals) (some child) :=
        ⟨hlater, hroot, hliteral.around_eq ▸ hsees'⟩
      apply (populate_agrees inner hplaced).bind
      intro _ c₁ _ ho₁
      apply (populateNested_agrees inner (ho₁.later hlater) (ho₁.root ▸ hroot) (hsees'.outlines ho₁)
        (hinner.outlines ho₁ fun _ _ => trivial)).bind
      intro _ c₂ _ ho₂
      have ho := ho₁.trans ho₂
      exact populateNested_agrees rest (ho.later hlater) (ho.root ▸ hroot) (hsees.outlines ho)
        (hrest.outlines ho fun _ _ => trivial)
termination_by sizeOf members

end

end Build
end Binder
