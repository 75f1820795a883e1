import Binder.Module.Resolve
import Mathlib.Tactic.Common

/-! Passes that succeed. A pass ends in a property of its answer and of the context after it; such
properties are composed along the passes that a pass is made of. -/
namespace Binder

theorem Tree.Member.nested_cases {α : Type} (m : Tree.Member α) :
    (∃ name note inner, m = .nested name (.typeLiteral note inner)) ∨
      ∀ name note inner, m ≠ .nested name (.typeLiteral note inner) := by
  grind

namespace Context

variable {c : Context}

def setGraph (c : Context) (g : TypeGraph) : Context :=
  { c with inference := { c.inference with graph := g } }

def setBuilders (c : Context) (bs : Array TypeBuilder) : Context := { c with builders := bs }

@[simp] theorem graph_setGraph (g : TypeGraph) : (c.setGraph g).graph = g := rfl

@[simp] theorem builders_setGraph (g : TypeGraph) : (c.setGraph g).builders = c.builders := rfl

@[simp] theorem graph_setBuilders (bs : Array TypeBuilder) : (c.setBuilders bs).graph = c.graph :=
  rfl

@[simp] theorem builders_setBuilders (bs : Array TypeBuilder) : (c.setBuilders bs).builders = bs :=
  rfl

@[simp] theorem setBuilders_setBuilders (bs bs' : Array TypeBuilder) :
    (c.setBuilders bs).setBuilders bs' = c.setBuilders bs' := rfl

@[simp] theorem setBuilders_self : c.setBuilders c.builders = c := rfl

def reported (c : Context) (d : Diagnostic) : Context :=
  { c with diagnostics := c.diagnostics ++ [d] }

end Context

namespace Build

open Context

variable {α β : Type} {p : Build α} {c : Context} {Q R : α → Context → Prop}

/-- The pass succeeds from the context, and the property holds then. -/
def Ends (p : Build α) (c : Context) (Q : α → Context → Prop) : Prop :=
  ∃ a c', p c = .ok a c' ∧ Q a c'

theorem bind_of_ok {f : α → Build β} {a : α} {c' : Context} (hp : p c = .ok a c') :
    (p >>= f) c = f a c' := by
  simp only [Bind.bind, EStateM.bind, hp]

theorem exists_of_bind_ok {f : α → Build β} {c' : Context} {b : β}
    (h : (p >>= f) c = .ok b c') : ∃ a c₁, p c = .ok a c₁ ∧ f a c₁ = .ok b c' := by
  simp only [Bind.bind, EStateM.bind] at h
  split at h
  next a c₁ hc₁ => exact ⟨a, c₁, hc₁, h⟩
  next => cases h

theorem get_bind (f : Context → Build α) : (get >>= f) c = f c c := rfl

theorem modifyGet_eq (f : Context → α × Context) : (modifyGet f : Build α) c = .ok (f c).1 (f c).2 := rfl

section

variable {id : BuilderId} {b : TypeBuilder}

theorem withBuilder_eq (hb : c.builders[id.index]? = some b)
    (missing : α) (f : TypeBuilder → α × TypeBuilder) : withBuilder id missing f c =
      .ok (f b).1 (c.setBuilders (c.builders.setIfInBounds id.index (f b).2)) := by
  rw [withBuilder, modifyGet_eq]
  simp only [hb]
  rfl

theorem withBuilder_of_missing (hb : c.builders[id.index]? = none) (missing : α)
    (f : TypeBuilder → α × TypeBuilder) : withBuilder id missing f c = .ok missing c := by
  rw [withBuilder, modifyGet_eq]
  simp only [hb]

end

namespace Ends

theorem pure {a : α} (h : Q a c) : Ends (pure a) c Q := ⟨a, c, rfl, h⟩

theorem bind {f : α → Build β} {Q : β → Context → Prop}
    (h : Ends p c fun a c' => Ends (f a) c' Q) : Ends (p >>= f) c Q := by
  obtain ⟨a, c', hp, b, c'', hf, hQ⟩ := h
  exact ⟨b, c'', (bind_of_ok hp).trans hf, hQ⟩

theorem mono (h : Ends p c Q) (hQ : ∀ a c', Q a c' → R a c') : Ends p c R := by
  obtain ⟨a, c', hp, hq⟩ := h
  exact ⟨a, c', hp, hQ a c' hq⟩

theorem keep (h : Ends p c Q) : Ends p c fun a c' => p c = .ok a c' ∧ Q a c' := by
  obtain ⟨a, c', hp, hQ⟩ := h
  exact ⟨a, c', hp, hp, hQ⟩

theorem get {Q : Context → Context → Prop} (h : Q c c) : Ends get c Q := ⟨c, c, rfl, h⟩

theorem modify {f : Context → Context} {Q : Unit → Context → Prop} (h : Q () (f c)) :
    Ends (modify f) c Q := ⟨(), f c, rfl, h⟩

theorem modifyGet {f : Context → α × Context} (h : Q (f c).1 (f c).2) :
    Ends (modifyGet f) c Q := ⟨(f c).1, (f c).2, rfl, h⟩

theorem and (h : Ends p c Q) (h' : Ends p c R) : Ends p c fun a c' => Q a c' ∧ R a c' := by
  obtain ⟨a, c', hp, hq⟩ := h
  obtain ⟨b, c'', hp', hr⟩ := h'
  cases hp.symm.trans hp'
  exact ⟨a, c', hp, hq, hr⟩

/-- What every round of a loop passes on to the next holds when the loop is over. -/
theorem forM {f : α → Build Unit} {I : List α → Context → Prop}
    (hstep : ∀ a rest c, I (a :: rest) c → Ends (f a) c fun _ c' => I rest c') :
    ∀ (l : List α) {c}, I l c → Ends (l.forM f) c fun _ c' => I [] c'
  | [], _, h => pure h
  | a :: l, c, h => bind ((hstep a l c h).mono fun _ _ hrest => forM hstep l hrest)

/-- A loop of which every round moves its item from those that are left to those that are done. -/
theorem forM_split {f : α → Build Unit} {I : List α → List α → Context → Prop} (l : List α)
    (hstep : ∀ done a rest, done ++ a :: rest = l → ∀ c, I done (a :: rest) c →
      Ends (f a) c fun _ c' => I (done ++ [a]) rest c')
    (h : I [] l c) : Ends (l.forM f) c fun _ c' => I l [] c' := by
  have hround : ∀ a rest c, (∃ done, done ++ a :: rest = l ∧ I done (a :: rest) c) →
      Ends (f a) c fun _ c' => ∃ done, done ++ rest = l ∧ I done rest c' := by
    rintro a rest c ⟨done, hl, hI⟩
    apply (hstep done a rest hl c hI).mono
    intro _ c' hI'
    exact ⟨done ++ [a], by rw [← hl, List.append_assoc, List.singleton_append], hI'⟩
  apply (forM (f := f) (I := fun rest c => ∃ done, done ++ rest = l ∧ I done rest c) hround l
    ⟨[], rfl, h⟩).mono
  rintro _ c' ⟨done, rfl, hI⟩
  rwa [List.append_nil]

/-- A loop of which every round adds its item to those that are done. -/
theorem forM_done {f : α → Build Unit} {I : List α → Context → Prop} (l : List α)
    (hstep : ∀ done, ∀ a ∈ l, ∀ c, I done c → Ends (f a) c fun _ c' => I (done ++ [a]) c')
    (h : I [] c) : Ends (l.forM f) c fun _ c' => I l c' := by
  apply forM_split (I := fun done _ c => I done c) l ?_ h
  intro done a rest hl c hI
  have hmem : a ∈ l := by simp [← hl]
  exact hstep done a hmem c hI

theorem mapM {f : α → Build β} {I : List α → List β → Context → Prop}
    (hstep : ∀ a rest done c, I (a :: rest) done c →
      Ends (f a) c fun b c' => I rest (done ++ [b]) c') :
    ∀ (l : List α) {done c}, I l done c →
      Ends (l.mapM f) c fun bs c' => I [] (done ++ bs) c' := by
  intro l
  induction l with
  | nil =>
    intro done c h
    exact pure (by simpa using h)
  | cons a l ih =>
    intro done c h
    rw [List.mapM_cons]
    refine bind ((hstep a l done c h).mono fun b c' hrest => ?_)
    refine bind ((ih hrest).mono fun bs c'' hdone => pure ?_)
    simpa using hdone

theorem withGraph {f : TypeGraph → α × TypeGraph}
    (h : Q (f c.graph).1 (c.setGraph (f c.graph).2)) : Ends (withGraph f) c Q := ⟨_, _, rfl, h⟩

theorem newBuilder {symbol : SymbolId} {container : Option SymbolId} {scope : Option BuilderId}
    {Q : BuilderId → Context → Prop}
    (h : ∀ b : TypeBuilder, b = { symbol, container, enclosing := c.around scope } →
      Q ⟨c.builders.size⟩ (c.setBuilders (c.builders.push b))) :
    Ends (newBuilder symbol container scope) c Q := ⟨_, _, rfl, h _ rfl⟩

theorem withBuilder {id : BuilderId} {b : TypeBuilder} {missing : α}
    {f : TypeBuilder → α × TypeBuilder} (hb : c.builders[id.index]? = some b)
    (h : Q (f b).1 (c.setBuilders (c.builders.setIfInBounds id.index (f b).2))) :
    Ends (withBuilder id missing f) c Q := ⟨_, _, withBuilder_eq hb missing f, h⟩

theorem report {span : Span} {fault : Fault} {Q : Unit → Context → Prop}
    (h : Q () (c.reported ⟨span, fault⟩)) : Ends (report span fault) c Q := ⟨_, _, rfl, h⟩

theorem fold {e : Tree.Expr} {Q : Constant → Context → Prop}
    (h : Q (Constant.eval e).1
      { c with foldingFaults := c.foldingFaults ++ (Constant.eval e).2 }) :
    Ends (fold e) c Q := ⟨_, _, rfl, h⟩

theorem withInference {f : Inference.State → Inference.Outcome α} {s : Inference.State} {a : α}
    (hf : f c.inference = (s, .ok a)) (h : Q a { c with inference := s }) :
    Ends (withInference f) c Q := by
  refine ⟨a, _, ?_, h⟩
  simp only [Build.withInference, hf]

end Ends

theorem Ends.of_eq {a : α} {c' : Context} (h : Ends p c Q) (hp : p c = .ok a c') : Q a c' := by
  obtain ⟨b, c'', hp', hQ⟩ := h
  cases hp.symm.trans hp'
  exact hQ

/-- Only the nested types that were accepted are filled. -/
theorem populateNested_cons (m : Tree.Member Tree.Mark) (rest : List (Tree.Member Tree.Mark))
    (plans : List Plan) : populateNested (m :: rest) plans = match m, plans with
      | .nested _ (.typeLiteral _ inner), .accepted _ child inside :: plans => do
          populate child none inner
          populateNested inner inside
          populateNested rest plans
      | .nested _ (.typeLiteral _ _), .refused :: plans => populateNested rest plans
      | _, plans => populateNested rest plans := by
  cases m with
  | nested name value =>
    cases value <;> rcases plans with _ | ⟨_ | _, _⟩ <;> simp only [populateNested, populateNestedBy]
  | _ => simp only [populateNested, populateNestedBy]

theorem populateNestedBy_skip {κ : Type} {r : Resolver κ} {around : κ} {m : Tree.Member Tree.Mark}
    {rest : List (Tree.Member Tree.Mark)} {plans : List Plan}
    (hm : ∀ name note inner, m ≠ .nested name (.typeLiteral note inner)) :
    populateNestedBy r around (m :: rest) plans = populateNestedBy r around rest plans := by
  rw [populateNestedBy] <;> (intros; exact hm _ _ _ ‹_›)

end Build
end Binder
