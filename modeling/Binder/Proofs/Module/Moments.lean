import Binder.Proofs.Inference.Deferral
import Binder.Proofs.Module.Concluding
import Binder.Proofs.Module.Families

/-! The moments of a build. A pass is composed of primitive operations, which make a symbol or a type,
do one step of inference, or leave the graph of types alone. Whatever a graph is like at some moment of
a build, it can still grow into the graph at the end, in which no array or reference contains itself.
Hence none ever does, and each comparison that a build makes comes to an end. -/
namespace Binder

open Binder.Tree (Expr Mark)
open Inference (Task)

namespace Build

open Context

variable {α β : Type} {p : Build α} {f : α → Build β} {c c' m : Context}

/-- Does one step of inference; the answer is what it leads to. -/
def stepTask (task : Task) : Build (List Task) := fun c =>
  match c.inference.step task with
  | .ok (new, s) => .ok new { c with inference := s }
  | .error e => .error e c

/-- Unifies two symbols; what that binds is still to be settled. -/
def unifyOnly (a b : SymbolId) : Build Bool := fun c =>
  match c.inference.unify a b with
  | .ok (unified, s) => .ok unified { c with inference := s }
  | .error e => .error e c

/-- Passes the type of a symbol on to its group. -/
def settleBound (symbol : SymbolId) : Build Unit :=
  modify fun c => { c with inference := c.inference.settleBound symbol }

/-- The operations that passes are made of. -/
inductive Primitive : {α : Type} → Build α → Prop where
  /-- something else than the graph is looked up or changed -/
  | edit {α : Type} (f : Context → α × Context) :
      (∀ c, (f c).2.graph = c.graph) → Primitive (modifyGet f)
  | newSymbol (name : String) : Primitive (newSymbol name)
  | newType {α : Type} (d : TypeDef) (answer : TypeId → α) :
      Primitive (withGraph fun g => (answer (g.newType d).1, (g.newType d).2))
  | stepTask (task : Task) : Primitive (stepTask task)
  | unifyOnly (a b : SymbolId) : Primitive (unifyOnly a b)
  | settleBound (symbol : SymbolId) : Primitive (settleBound symbol)
  | misuse {α : Type} (e : Misuse) : Primitive (throw e : Build α)

/-- A pass that does primitive operations one after another. -/
inductive Composed : {α : Type} → Build α → Prop where
  | pure {α : Type} (a : α) : Composed (pure a)
  | one {α : Type} {p : Build α} : Primitive p → Composed p
  | bind {α β : Type} {p : Build α} {f : α → Build β} :
      Composed p → (∀ a, Composed (f a)) → Composed (p >>= f)

/-- The contexts that a pass goes through: before and after each primitive operation. -/
inductive Moment : {α : Type} → Build α → Context → Context → Prop where
  | start {α : Type} (p : Build α) (c : Context) : Moment p c c
  | done {α : Type} {p : Build α} (c : Context) : Primitive p → Moment p c (c.after p).1
  | left {α β : Type} {p : Build α} {f : α → Build β} {c m : Context} :
      Composed p → (∀ a, Composed (f a)) → Moment p c m → Moment (p >>= f) c m
  | right {α β : Type} {p : Build α} {f : α → Build β} {c c' m : Context} {a : α} :
      Composed p → (∀ a, Composed (f a)) → p c = .ok a c' → Moment (f a) c' m →
      Moment (p >>= f) c m

theorem Primitive.extends (h : Primitive p) (c : Context) :
    c.graph.Extends (c.after p).1.graph := by
  cases h with
  | edit f hf =>
    show c.graph.Extends (f c).2.graph
    rw [hf]
    exact .refl _
  | newSymbol name => exact ⟨TypeGraph.grows_newSymbol name, fun h => h.newSymbol name⟩
  | newType d => exact ⟨TypeGraph.grows_newType d, fun h => h.newType d⟩
  | stepTask task =>
    unfold after Build.stepTask
    cases hs : c.inference.step task with
    | ok r => exact Inference.State.extends_step hs
    | error => exact .refl _
  | unifyOnly a b =>
    unfold after Build.unifyOnly
    cases hs : c.inference.unify a b with
    | ok r => exact Inference.State.extends_unify hs
    | error => exact .refl _
  | settleBound symbol => exact Inference.State.extends_settleBound c.inference symbol
  | misuse => exact .refl _

theorem after_bind_of_ok {a : α} (h : p c = .ok a c') :
    (c.after (p >>= f)).1 = (c'.after (f a)).1 := by
  rw [after, after, bind_of_ok h]

theorem after_bind_of_error {e : Misuse} (h : p c = .error e c') : (c.after (p >>= f)).1 = c' := by
  have hbind : (p >>= f) c = .error e c' := by simp only [Bind.bind, EStateM.bind, h]
  rw [after, hbind]

theorem extends_bind (f : α → Build β)
    (hf : ∀ a c', p c = .ok a c' → c'.graph.Extends (c'.after (f a)).1.graph) :
    (c.after p).1.graph.Extends (c.after (p >>= f)).1.graph := by
  cases hc : p c with
  | ok a c' =>
    rw [after_bind_of_ok hc, after, hc]
    exact hf a c' hc
  | error e c' =>
    rw [after_bind_of_error hc, after, hc]
    exact .refl _

theorem Composed.extends (h : Composed p) (c : Context) : c.graph.Extends (c.after p).1.graph := by
  induction h generalizing c with
  | pure a => exact .refl _
  | one hp => exact hp.extends c
  | bind _ _ ihp ihf => exact (ihp c).trans (extends_bind _ fun a c' _ => ihf a c')

theorem Moment.extends (h : Moment p c m) (hp : Composed p) :
    c.graph.Extends m.graph ∧ m.graph.Extends (c.after p).1.graph := by
  induction h with
  | start p c => exact ⟨.refl _, hp.extends c⟩
  | done c h => exact ⟨h.extends c, .refl _⟩
  | left hfirst hsecond _ ih =>
    obtain ⟨hstart, hend⟩ := ih hfirst
    exact ⟨hstart, hend.trans (extends_bind _ fun a c' _ => (hsecond a).extends c')⟩
  | @right _ _ _ _ c _ _ _ hcomposed hsecond hc _ ih =>
    obtain ⟨hstart, hend⟩ := ih (hsecond _)
    have hfirst := hcomposed.extends c
    rw [after, hc] at hfirst
    rw [after_bind_of_ok hc]
    exact ⟨hfirst.trans hstart, hend⟩

/-! The passes of a build are composed -/

namespace Composed

theorem get : Composed (get : Build Context) := .one (.edit (fun c => (c, c)) fun _ => rfl)

theorem modify {f : Context → Context} (h : ∀ c, (f c).graph = c.graph) :
    Composed (modify f : Build Unit) := .one (.edit (fun c => ((), f c)) h)

theorem forM {f : α → Build Unit} (l : List α) (h : ∀ a, Composed (f a)) : Composed (l.forM f) := by
  induction l with
  | nil => exact .pure ()
  | cons a l ih => exact (h a).bind fun _ => ih

end Composed

/-- Does steps of inference, but not more than a given number. -/
def work : (limit : Nat) → List Task → Build Unit
  | 0, _ => pure ()
  | _, [] => pure ()
  | limit + 1, task :: rest => do
      let new ← stepTask task
      work limit (new ++ rest)

theorem work_composed (limit : Nat) (ts : List Task) : Composed (work limit ts) := by
  induction limit generalizing ts with
  | zero => exact .pure ()
  | succ limit ih =>
    cases ts with
    | nil => exact .pure ()
    | cons task rest => exact (Composed.one (.stepTask task)).bind fun new => ih _

/-- No run takes more steps than what is due and what the state holds allow for. -/
theorem work_eq_runs {limit : Nat} {ts : List Task}
    (h : Inference.due ts + c.inference.load < limit) : work limit ts c = runs ts c := by
  induction limit generalizing ts c with
  | zero => omega
  | succ limit ih =>
    cases ts with
    | nil => rw [runs_nil]; rfl
    | cons task rest =>
      rw [work, runs, withInference]
      cases hs : c.inference.step task with
      | error e =>
        have hstep : stepTask task c = .error e c := by rw [stepTask, hs]
        simp only [Inference.State.run_cons_error hs, Bind.bind, EStateM.bind, hstep]
      | ok r =>
        obtain ⟨new, s⟩ := r
        have hstep : stepTask task c = .ok new { c with inference := s } := by rw [stepTask, hs]
        have hlt := Inference.State.step_lt hs
        rw [bind_of_ok hstep, ih, Inference.State.run_cons_ok hs]
        · rfl
        · rw [Inference.due_append]
          rw [Inference.due_cons] at h
          show _ + s.load < limit
          omega

theorem runs_composed (ts : List Task) : Composed (runs ts) := by
  have heq : runs ts = (do
      let c ← get
      work (Inference.due ts + c.inference.load + 1) ts) := by
    funext c
    rw [get_bind, work_eq_runs (Nat.lt_succ_self _)]
  rw [heq]
  exact Composed.get.bind fun c => work_composed _ ts

theorem unify_composed (a b : SymbolId) :
    Composed (withInference fun s => Inference.unify s a b) := by
  have heq : (withInference fun s => Inference.unify s a b) = (do
      let unified ← unifyOnly a b
      runs [.settle]
      return unified) := by
    funext c
    simp only [withInference, Inference.unify, Bind.bind, EStateM.bind, unifyOnly]
    cases hu : c.inference.unify a b with
    | error e => rfl
    | ok r =>
      obtain ⟨unified, s⟩ := r
      simp only [runs, withInference]
      cases hrun : s.run [.settle] with
      | mk s' outcome => cases outcome <;> rfl
  rw [heq]
  exact (Composed.one (.unifyOnly a b)).bind fun unified =>
    (runs_composed _).bind fun _ => .pure unified

theorem bound_composed (symbol : SymbolId) :
    Composed (withInference fun s => Inference.bound s symbol) :=
  (Composed.one (.settleBound symbol)).bind fun _ => runs_composed [.wake symbol, .settle]

theorem report_composed (span : Span) (fault : Fault) : Composed (report span fault) :=
  .modify fun _ => rfl

theorem newSymbol_composed (name : String) : Composed (newSymbol name) := .one (.newSymbol name)

theorem newAnonymous_composed (kind : TypeKind) : Composed (newAnonymous kind) :=
  (newSymbol_composed "").bind fun symbol =>
    .one (.newType { symbol := symbol, kind := kind } fun _ => symbol)

theorem enterScope_composed (d : Declaration) : Composed (enterScope d) :=
  .one (.edit _ fun _ => rfl)

theorem newBuilder_composed (symbol : SymbolId) (container : Option SymbolId)
    (scope : Option BuilderId) : Composed (newBuilder symbol container scope) :=
  .one (.edit _ fun _ => rfl)

theorem withBuilder_composed (id : BuilderId) (missing : α) (f : TypeBuilder → α × TypeBuilder) :
    Composed (withBuilder id missing f) := by
  refine .one (.edit _ fun c => ?_)
  cases c.builders[id.index]? <;> rfl

theorem fold_composed (e : Expr) : Composed (fold e) := .one (.edit _ fun _ => rfl)

theorem finishType_composed (id : BuilderId) : Composed (finishType id) := by
  apply Composed.get.bind
  intro c
  split
  · exact .pure _
  next builder _ =>
    apply Composed.bind (.one (.newType _ fun _ => (builder.build c.graph).2.2))
    intro b
    exact (withBuilder_composed _ _ _).bind fun _ => bound_composed _

theorem composed_family : Family Composed fun _ => True where
  pure := .pure
  bind := .bind
  read _ hf := .bind .get hf
  report span _ _ := report_composed span _
  fold := fold_composed
  newSymbol := newSymbol_composed
  newAnonymous := newAnonymous_composed
  pledge _ _ := .modify fun _ => rfl
  write _ _ _ _ := withBuilder_composed _ _ _
  newBuilder _ _ _ hf := (newBuilder_composed _ _ _).bind fun id => hf id trivial
  addNested _ _ _ := withBuilder_composed _ _ _
  finishType := finishType_composed

theorem enterBinding_composed (e : Expr) : Composed (enterBinding e) := by
  unfold enterBinding
  split
  · split
    · apply (newSymbol_composed _).bind
      intro symbol
      apply (enterScope_composed _).bind
      intro inserted
      split
      · exact .modify fun _ => rfl
      · exact report_composed _ _
    · exact .modify fun _ => rfl
  · exact .modify fun _ => rfl
  · exact .modify fun _ => rfl

theorem enter_composed (root : Expr) : Composed (enter root) := by
  apply Composed.get.bind
  intro c
  split
  · exact (Composed.forM _ enterBinding_composed).bind fun _ => .modify fun _ => rfl
  · exact .one (.misuse _)
  · exact .one (.misuse _)

theorem declareValue_composed (d : Definition) : Composed (declareValue d) := by
  apply (newSymbol_composed "").bind
  intro symbol
  apply (enterScope_composed _).bind
  intro inserted
  split
  · exact .modify fun _ => rfl
  · exact report_composed _ _

theorem declareValues_composed : Composed declareValues := by
  apply Composed.get.bind
  intro c
  apply Composed.bind (.modify fun _ => by rfl)
  intro _
  exact (Composed.forM _ declareValue_composed).bind fun _ => .modify fun _ => rfl

theorem makeTypes_composed : Composed makeTypes :=
  composed_family.makeTypes (fun _ => trivial) (.modify fun _ => rfl)

theorem infer_composed (e : Expr) : Composed (withInference fun s => Inference.infer s e) :=
  runs_composed [.infer e]

theorem inferValue_composed (v : ModuleValue) : Composed (inferValue v) :=
  composed_family.inferValue unify_composed runs_composed v

theorem inferAll_composed : Composed inferAll := by
  apply Composed.get.bind
  intro c
  apply (Composed.forM _ inferValue_composed).bind
  intro _
  apply Composed.get.bind
  intro c
  apply Composed.bind (.modify fun _ => by rfl)
  intro _
  apply Composed.bind
  · apply Composed.forM
    intro fallback
    rw [inferFallback_eq]
    exact runs_composed _
  · intro _
    apply Composed.get.bind
    intro c
    exact Composed.bind (.modify fun _ => by rfl) fun _ => .forM _ infer_composed

theorem foldValue_composed (v : ModuleValue) : Composed (foldValue v) := by
  unfold foldValue
  split
  · split
    · exact .pure ()
    · apply Composed.get.bind
      intro c
      split
      · split
        · exact .pure ()
        · apply (fold_composed _).bind
          intro constant
          split
          · exact .modify fun _ => rfl
          · exact .pure ()
      · exact .pure ()
  · exact .pure ()

theorem conclude_composed : Composed conclude := by
  apply Composed.get.bind
  intro c
  apply (Composed.forM _ foldValue_composed).bind
  intro _
  apply Composed.bind (.modify fun _ => by rfl)
  intro _
  apply Composed.bind
  · apply Composed.get.bind
    intro c
    apply (newSymbol_composed _).bind
    intro symbol
    apply Composed.bind (.one (.newType _ id))
    intro t
    exact Composed.bind (.modify fun _ => by rfl) fun _ => .pure t
  · intro t
    exact Composed.bind (.modify fun _ => by rfl) fun _ => .pure t

theorem build_composed (root : Expr) : Composed (build root) := by
  have hrest : Composed complete :=
    (declareValues_composed.bind fun _ => makeTypes_composed).bind fun _ =>
      inferAll_composed.bind fun _ => conclude_composed
  simp only [complete, furnish, conclude, bind_assoc] at hrest
  apply Composed.get.bind
  intro c
  split
  · exact (enter_composed root).bind fun _ => hrest
  · exact hrest
  · exact (Composed.one (.misuse _)).bind fun _ => hrest

end Build

namespace Context

/-- At no moment of a build does an array or a reference contain itself, so that whatever a build
unifies or compares, it comes to an end. This holds within an operation as well, which can only have
passed through graphs that grow into the one that it leaves. -/
theorem build_moments_acyclic {d : Document} {k k' : Nat} {root : Expr} (name : String)
    (hlower : d.lower k = .ok root k') :
    Build.Composed (Build.build root) ∧ (∃ c t, (initial name).build root = (c, .ok t)) ∧
      ∀ m, Build.Moment (Build.build root) (initial name) m →
        m.graph.Acyclic ∧ ∀ g : TypeGraph, g.Closed → g.Grows m.graph → g.Acyclic := by
  have hcomposed := Build.build_composed root
  obtain ⟨c, t, hafter, i, m, s, hdone⟩ := exists_outcome hlower name
  obtain ⟨rank, hranked⟩ := hdone.built.ranked hdone.concludes.ready
  refine ⟨hcomposed, ⟨c, t, hafter⟩, ?_⟩
  intro m hm
  obtain ⟨hstart, hend⟩ := hm.extends hcomposed
  rw [show (initial name).after (Build.build root) = (c, .ok t) from hafter] at hend
  have hclosed : m.graph.Closed :=
    hstart.closed fun _ _ hs => (TypeGraph.unfilled_prelude.orderly (V := []) nofun).types hs
  have hacyclic : ∀ g : TypeGraph, g.Closed → g.Grows m.graph → g.Acyclic := fun g hg hgrows =>
    (hranked.of_grows (hgrows.trans hend.grows)).acyclic hg
  exact ⟨hacyclic m.graph hclosed (.refl _), hacyclic⟩

/-- A type that refers to itself through references and arrays, and values that are inferred from each
other against the order in which they are written. -/
def linkedNodes : Document where
  bindings := [
    .definition none false "Node" none (some (.typeLiteral none [
      .field "next" (.referenceType none (.ident none "Node")) true,
      .field "rows" (.arrayType none (.arrayType none (.ident none "Node") none) none) false])),
    .definition none false "first" none (some (.ident none "second")),
    .definition none false "second" (some (.arrayType none (.referenceType none (.ident none "Node")) none))
      none]

def linkedRoot : Expr := linkedNodes.root

theorem build_moments_acyclic_linkedNodes : linkedNodes.lower 0 = .ok linkedRoot 15 ∧
    Build.Composed (Build.build linkedRoot) ∧
      (∃ c t, (initial "main").build linkedRoot = (c, .ok t)) ∧
      ∀ m, Build.Moment (Build.build linkedRoot) (initial "main") m →
        m.graph.Acyclic ∧ ∀ g : TypeGraph, g.Closed → g.Grows m.graph → g.Acyclic :=
  have hlower : linkedNodes.lower 0 = .ok linkedRoot 15 := rfl
  ⟨hlower, build_moments_acyclic "main" hlower⟩

end Context
end Binder
