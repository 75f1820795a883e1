import Binder.Proofs.Module.Concluding

/-! Calls on one context. Whatever trees are handed over, entering and building answer according to the
stage that the context is in. A call that fails says that it came too late, and changes nothing. -/
namespace Binder

open Binder.Tree (Expr)

/-- A call on a context. -/
inductive Request where
  | enter (root : Expr)
  | build (root : Expr)

def Request.root : Request → Expr
  | .enter root | .build root => root

/-- The tree comes from a document that was lowered, after however many others. -/
def Request.Lowered (r : Request) : Prop :=
  ∃ (d : Document) (k k' : Nat), d.lower k = .ok r.root k'

theorem Request.Lowered.once {r : Request} (h : r.Lowered) (n : Tree.NodeId) :
    Tree.count n (Tree.preorderOf r.root.bindings) ≤ 1 := by
  obtain ⟨d, k, k', hd⟩ := h
  exact Document.count_lower_le_one hd n

/-- The stage after a call and the answer to the call. -/
def Stage.answer : Stage → Request → Stage × Except Misuse Unit
  | .unbound, .enter _ => (.entered, .ok ())
  | .unbound, .build _ => (.built, .ok ())
  | .entered, .enter _ => (.entered, .error .alreadyEntered)
  | .entered, .build _ => (.built, .ok ())
  | .built, _ => (.built, .error .alreadyBuilt)

namespace Context

open Build

variable {c : Context} {name : String} {r : Request}

/-- Carries out a call and tells whether it has succeeded. -/
def serve (c : Context) : Request → Context × Except Misuse Unit
  | .enter root => c.enter root
  | .build root => ((c.build root).1, (c.build root).2.map fun _ => ())

def serveAll (c : Context) (requests : List Request) : Context :=
  requests.foldl (fun c r => (c.serve r).1) c

theorem serveAll_cons (c : Context) (r : Request) (requests : List Request) :
    c.serveAll (r :: requests) = (c.serve r).1.serveAll requests := rfl

/-- What is known of a context between calls. -/
def Serviceable (name : String) (c : Context) : Prop :=
  match c.stage with
  | .unbound => c = .initial name
  | .entered => ∃ bindings, c.Entered bindings ∧
      ∀ n, Tree.count n (Tree.preorderOf bindings) ≤ 1
  | .built => True

/-- A call answers according to the stage, and changes nothing if it fails. -/
structure Serves (name : String) (c : Context) (r : Request) : Prop where
  answer : (c.serve r).2 = (c.stage.answer r).2
  stage : (c.serve r).1.stage = (c.stage.answer r).1
  unchanged : ∀ e, (c.serve r).2 = .error e → (c.serve r).1 = c
  serviceable : (c.serve r).1.Serviceable name

theorem Serves.of_ok {c' : Context} (hc' : c.serve r = (c', .ok ()))
    (hanswer : c.stage.answer r = (c'.stage, .ok ())) (hs : c'.Serviceable name) :
    c.Serves name r := by
  constructor
  · rw [hc', hanswer]
  · rw [hc', hanswer]
  · intro e he
    rw [hc'] at he
    cases he
  · rw [hc']
    exact hs

theorem Serves.of_error {e : Misuse} (hc : c.serve r = (c, .error e))
    (hanswer : c.stage.answer r = (c.stage, .error e)) (hs : c.Serviceable name) :
    c.Serves name r := by
  constructor
  · rw [hc, hanswer]
  · rw [hc, hanswer]
  · intro e' _
    rw [hc]
  · rw [hc]
    exact hs

theorem Serves.of_build {root : Expr}
    (h : Ends (Build.build root) c fun _ c' => c'.stage = .built)
    (hanswer : c.stage.answer (.build root) = (.built, .ok ())) :
    c.Serves name (.build root) := by
  obtain ⟨t, c', hbuild, hstage⟩ := after_of_ends h
  have hserve : c.serve (.build root) = (c', .ok ()) := by
    rw [serve, build, hbuild]
    rfl
  apply Serves.of_ok hserve
  · rw [hanswer, hstage]
  · rw [Serviceable, hstage]
    trivial

theorem serves_initial (name : String) (hr : r.Lowered) : (initial name).Serves name r := by
  cases r with
  | enter root =>
    obtain ⟨⟨⟩, c', henter, hentered, hstage⟩ := after_of_ends (enter_ends name root)
    have hserve : (initial name).serve (.enter root) = (c', .ok ()) := henter
    apply Serves.of_ok hserve
    · rw [hstage]
      rfl
    · rw [Serviceable, hstage]
      exact ⟨root.bindings, hentered, hr.once⟩
  | build root =>
    apply Serves.of_build ?_ rfl
    apply (build_ends name root hr.once).mono
    rintro _ c' ⟨i, m, s, hdone⟩
    exact hdone.built.stage

theorem serves_entered {bindings : List Expr} (hstage : c.stage = .entered)
    (h : c.Entered bindings) (honce : ∀ n, Tree.count n (Tree.preorderOf bindings) ≤ 1)
    (r : Request) : c.Serves name r := by
  cases r with
  | enter root =>
    apply Serves.of_error (e := .alreadyEntered)
    · rw [serve, enter, after, enter_of_entered hstage]
    · rw [hstage]
      rfl
    · rw [Serviceable, hstage]
      exact ⟨bindings, h, honce⟩
  | build root =>
    apply Serves.of_build
    · rw [Ends, build_of_entered hstage root]
      apply (complete_ends h honce).mono
      rintro _ c' ⟨i, m, s, -, hdone⟩
      exact hdone.built.stage
    · rw [hstage]
      rfl

theorem serves_built (hstage : c.stage = .built) (r : Request) : c.Serves name r := by
  have hanswer : c.stage.answer r = (c.stage, .error .alreadyBuilt) := by
    rw [hstage]
    cases r <;> rfl
  have hserviceable : c.Serviceable name := by
    rw [Serviceable, hstage]
    trivial
  apply Serves.of_error ?_ hanswer hserviceable
  cases r with
  | enter root => rw [serve, enter, after, enter_of_built hstage]
  | build root =>
    rw [serve, build, after, build_of_built hstage]
    rfl

theorem Serviceable.serves (h : c.Serviceable name) (hr : r.Lowered) : c.Serves name r := by
  unfold Serviceable at h
  split at h
  next =>
    subst h
    exact serves_initial name hr
  next hstage =>
    obtain ⟨bindings, hentered, honce⟩ := h
    exact serves_entered hstage hentered honce r
  next hstage => exact serves_built hstage r

theorem serviceable_serveAll (requests : List Request) (h : c.Serviceable name)
    (hrequests : ∀ r ∈ requests, r.Lowered) : (c.serveAll requests).Serviceable name := by
  induction requests generalizing c with
  | nil => exact h
  | cons r rest ih =>
    have hserves := h.serves (hrequests r List.mem_cons_self)
    exact ih hserves.serviceable fun r' hr' => hrequests r' (List.mem_cons_of_mem r hr')

/-- After any calls with trees from documents, a call answers according to the stage of the context. If
it fails, it says that the context is entered or built already and leaves the context alone. -/
theorem serve_eq_answer (name : String) {requests : List Request}
    (hrequests : ∀ r ∈ requests, r.Lowered) {r : Request} (hr : r.Lowered) {c : Context}
    (hc : c = (initial name).serveAll requests) :
    (c.serve r).2 = (c.stage.answer r).2 ∧ (c.serve r).1.stage = (c.stage.answer r).1 ∧
      ∀ e, (c.serve r).2 = .error e →
        (c.serve r).1 = c ∧ (e = .alreadyEntered ∨ e = .alreadyBuilt) := by
  have hserviceable : c.Serviceable name := by
    rw [hc]
    exact serviceable_serveAll requests rfl hrequests
  have hserves := hserviceable.serves hr
  refine ⟨hserves.answer, hserves.stage, ?_⟩
  intro e he
  refine ⟨hserves.unchanged e he, ?_⟩
  rw [hserves.answer] at he
  unfold Stage.answer at he
  split at he <;> cases he
  · exact .inl rfl
  · exact .inr rfl

/-- A document with two values of one name. -/
def twice : Document where
  bindings := [.definition none false "a" none none, .definition none true "a" none none]

def twiceRoot : Expr := twice.root

theorem serve_eq_answer_twice :
    (Request.enter twiceRoot).Lowered ∧ (Request.build twiceRoot).Lowered ∧
      ∃ c, c = (initial "main").serveAll [.enter twiceRoot, .build twiceRoot] ∧
        c.stage = .built ∧ c.serve (.enter twiceRoot) = (c, .error .alreadyBuilt) := by
  have henter : (Request.enter twiceRoot).Lowered := ⟨twice, 0, 3, rfl⟩
  have hbuild : (Request.build twiceRoot).Lowered := ⟨twice, 0, 3, rfl⟩
  obtain ⟨c₁, hc₁⟩ : ∃ c, c = (initial "main").serveAll [.enter twiceRoot] := ⟨_, rfl⟩
  obtain ⟨c, hc⟩ : ∃ c, c = (initial "main").serveAll [.enter twiceRoot, .build twiceRoot] :=
    ⟨_, rfl⟩
  have hentered : c₁.stage = .entered := by
    rw [hc₁, serveAll_cons]
    exact (serve_eq_answer "main" (List.forall_mem_nil _) henter rfl).2.1
  have hbuilt : c.stage = .built := by
    have hnext : c = (c₁.serve (.build twiceRoot)).1 := by
      rw [hc, hc₁, serveAll_cons, serveAll_cons, serveAll_cons, serveAll, serveAll]
      rfl
    have hstage := (serve_eq_answer "main" (by simpa using henter) hbuild hc₁).2.1
    rw [hentered, ← hnext] at hstage
    exact hstage
  have hrequests : ∀ r ∈ [Request.enter twiceRoot, .build twiceRoot], r.Lowered := by
    simp [henter, hbuild]
  obtain ⟨hanswer, -, hunchanged⟩ := serve_eq_answer "main" hrequests henter hc
  rw [hbuilt] at hanswer
  have hfails : (c.serve (.enter twiceRoot)).2 = .error .alreadyBuilt := hanswer
  exact ⟨henter, hbuild, c, hc, hbuilt, Prod.ext (hunchanged _ hfails).1 hfails⟩

end Context
end Binder
