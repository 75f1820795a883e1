import Binder.Proofs.Document.Grouping
import Binder.Proofs.Inference.Aside
import Binder.Proofs.Module.Outcome
import Mathlib.Data.List.Flatten

/-! Modules without some of their bare expressions. No pass before the inference of bare expressions
looks at them, and then each is inferred as if it were alone. So a module keeps its types, its values
and their constants if a bare expression is left out, and only what that expression reports is gone. -/
namespace Binder

open Binder.Tree (Expr Node)
open Inference (Task)

variable {root : Expr}

/-- A binding that declares or extends something. -/
def Tree.Node.isStatement {α : Type} : Node α → Bool
  | .definition .. | .extension .. => true
  | _ => false

namespace Tree

variable {α : Type}

def statements (bindings : List (Node α)) : List (Node α) := bindings.filter Node.isStatement

def bare (bindings : List (Node α)) : List (Node α) := bindings.filter fun e => !e.isStatement

end Tree

def Context.withExpressions (c : Context) (xs : List Expr) : Context := { c with expressions := xs }

namespace Build

variable {α β : Type} {c c' : Context} {e : Expr}

/-- The pass neither looks at bare expressions nor changes them. -/
structure Blind (p : Build α) : Prop where
  at_end : ∀ {c a c'}, p c = .ok a c' → ∀ xs, p (c.withExpressions xs) = .ok a (c'.withExpressions xs)

namespace Blind

variable {p : Build α}

theorem pure (a : α) : Blind (pure a : Build α) := by
  constructor
  intro c b c' h xs
  cases h
  rfl

theorem bind {f : α → Build β} (hp : Blind p) (hf : ∀ a, Blind (f a)) :
    Blind (p >>= f) := by
  constructor
  intro c b c' h xs
  obtain ⟨a, c₁, hc₁, hrest⟩ := exists_of_bind_ok h
  exact (bind_of_ok (hp.at_end hc₁ xs)).trans ((hf a).at_end hrest xs)

theorem read {f : Context → Build α} (h : ∀ c xs, f { c with expressions := xs } = f c)
    (hf : ∀ c, Blind (f c)) : Blind (get >>= f) := by
  constructor
  intro c a c' hc xs
  rw [get_bind] at hc ⊢
  exact (congrFun (h c xs) _).trans ((hf c).at_end hc xs)

theorem modifyGet {f : Context → α × Context}
    (h : ∀ c xs, f (c.withExpressions xs) = ((f c).1, (f c).2.withExpressions xs)) :
    Blind (modifyGet f : Build α) := by
  constructor
  intro c a c' hc xs
  cases hc
  show EStateM.Result.ok (f (c.withExpressions xs)).1 (f (c.withExpressions xs)).2 = _
  rw [h]

theorem modify {f : Context → Context}
    (h : ∀ c xs, f (c.withExpressions xs) = (f c).withExpressions xs) : Blind (modify f : Build Unit) :=
  modifyGet fun c xs => congrArg (Prod.mk ()) (h c xs)

theorem forM {f : α → Build Unit} (l : List α) (h : ∀ a ∈ l, Blind (f a)) : Blind (l.forM f) := by
  induction l with
  | nil => exact pure ()
  | cons a l ih =>
    exact (h a List.mem_cons_self).bind fun _ => ih fun b hb => h b (List.mem_cons_of_mem a hb)

theorem withBuilder (id : BuilderId) (missing : α) (f : TypeBuilder → α × TypeBuilder) :
    Blind (withBuilder id missing f) := by
  refine modifyGet fun c xs => ?_
  have hsame : (c.withExpressions xs).builders = c.builders := rfl
  rw [hsame]
  cases c.builders[id.index]? <;> rfl

theorem withInference (f : Inference.State → Inference.Outcome α) : Blind (withInference f) := by
  constructor
  intro c a c' h xs
  have hsame : (c.withExpressions xs).inference = c.inference := rfl
  unfold Build.withInference at h ⊢
  rw [hsame]
  generalize f c.inference = outcome at h ⊢
  rcases outcome with ⟨s, e | a⟩
  · cases h
  · cases h; rfl

theorem expressions {a : α} (hp : Blind p) (h : p c = .ok a c') :
    c'.expressions = c.expressions := by
  have hsame : p c = .ok a (c'.withExpressions c.expressions) := hp.at_end h c.expressions
  have hend := (EStateM.Result.ok.inj (h.symm.trans hsame)).2
  have hexpressions := congrArg Context.expressions hend
  exact hexpressions

end Blind

theorem blind_family : Family Blind fun _ => True where
  pure := .pure
  bind := .bind
  read := .read
  report _ _ _ := .modify fun _ _ => rfl
  fold _ := .modifyGet fun _ _ => rfl
  newSymbol _ := .modifyGet fun _ _ => rfl
  newAnonymous _ := .modifyGet fun _ _ => rfl
  pledge _ _ := .modify fun _ _ => rfl
  write id missing f _ := .withBuilder id missing f
  newBuilder _ _ _ hf := .bind (.modifyGet fun _ _ => rfl) fun id => hf id trivial
  addNested _ _ _ := .withBuilder _ _ _
  finishType id := by
    refine .read (fun _ _ => rfl) fun c => ?_
    split
    · exact .pure _
    · refine .bind (.modifyGet fun _ _ => rfl) fun b => ?_
      exact (Blind.withBuilder _ _ _).bind fun _ => .withInference _

theorem enterScope_blind (d : Declaration) : Blind (enterScope d) := .modifyGet fun _ _ => rfl

theorem declareValues_blind : Blind declareValues := by
  refine .read (fun _ _ => rfl) fun c => (Blind.modify fun _ _ => rfl).bind fun _ => ?_
  refine (Blind.forM _ fun d _ => ?_).bind fun _ => .modify fun _ _ => rfl
  refine (blind_family.newSymbol "").bind fun symbol => (enterScope_blind _).bind fun inserted => ?_
  split
  · exact .modify fun _ _ => rfl
  · exact .modify fun _ _ => rfl

theorem inferValue_blind (v : ModuleValue) : Blind (inferValue v) :=
  blind_family.inferValue (fun _ _ => .withInference _) (fun _ => .withInference _) v

theorem furnishing_blind : Blind (do furnish; (← get).values.forM inferValue) := by
  rw [furnish, bind_assoc]
  refine declareValues_blind.bind fun _ => ?_
  refine (blind_family.makeTypes (fun _ => trivial) (.modify fun _ _ => rfl)).bind fun _ => ?_
  exact .read (fun _ _ => rfl) fun c => .forM _ fun v _ => inferValue_blind v

theorem enterBinding_blind (h : e.isStatement = true) : Blind (enterBinding e) := by
  unfold enterBinding
  split
  · split
    · refine (blind_family.newSymbol _).bind fun symbol => (enterScope_blind _).bind fun inserted => ?_
      split
      · exact .modify fun _ _ => rfl
      · exact .modify fun _ _ => rfl
    · exact .modify fun _ _ => rfl
  · exact .modify fun _ _ => rfl
  next hdefinition hextension =>
    cases e with
    | definition => exact absurd rfl (hdefinition _ _ _ _ _)
    | extension => exact absurd rfl (hextension _ _ _)
    | _ => cases h

theorem enterBinding_bare (h : e.isStatement = false) (c : Context) :
    enterBinding e c = .ok () (c.withExpressions (c.expressions ++ [e])) := by
  cases e with
  | definition | extension => cases h
  | _ => rfl

theorem statements_blind (l : List Expr) : Blind ((Tree.statements l).forM enterBinding) :=
  .forM _ fun _ he => enterBinding_blind (List.mem_filter.mp he).2

/-- Bare expressions could be entered after all the statements. -/
theorem enterBindings_split {c c' : Context} (l : List Expr) (h : l.forM enterBinding c = .ok () c') :
    ∃ c₁, (Tree.statements l).forM enterBinding c = .ok () c₁ ∧
      c' = c₁.withExpressions (c.expressions ++ Tree.bare l) := by
  induction l generalizing c with
  | nil =>
    cases h
    exact ⟨_, rfl, by simp [Tree.bare, Context.withExpressions]⟩
  | cons e l ih =>
    obtain ⟨_, c₀, hc₀, hrest⟩ :=
      exists_of_bind_ok (p := enterBinding e) (f := fun _ => l.forM enterBinding) h
    obtain ⟨c₁, hc₁, rfl⟩ := ih hrest
    cases hstatement : e.isStatement with
    | true =>
      have hstatements : Tree.statements (e :: l) = e :: Tree.statements l := by
        rw [Tree.statements, List.filter_cons_of_pos hstatement, Tree.statements]
      have hbare : Tree.bare (e :: l) = Tree.bare l := by simp [Tree.bare, hstatement]
      rw [hstatements, hbare, ← (enterBinding_blind hstatement).expressions hc₀]
      exact ⟨c₁, (bind_of_ok (p := enterBinding e) hc₀).trans hc₁, rfl⟩
    | false =>
      rw [enterBinding_bare hstatement] at hc₀
      cases hc₀
      have hstatements : Tree.statements (e :: l) = Tree.statements l := by
        simp [Tree.statements, hstatement]
      have hbare : Tree.bare (e :: l) = e :: Tree.bare l := by simp [Tree.bare, hstatement]
      rw [hstatements, hbare]
      refine ⟨_, (statements_blind l).at_end hc₁ c.expressions, ?_⟩
      simp [Context.withExpressions]

/-- The values of a module are inferred whatever bare expressions there are. -/
theorem appraise_split {root₀ : Expr} {name : String}
    (hroot : root₀.bindings = Tree.statements root.bindings)
    (h : appraise root (.initial name) = .ok () c) :
    ∃ c₀, appraise root₀ (.initial name) = .ok () c₀ ∧ c₀.expressions = [] ∧
      c = c₀.withExpressions (Tree.bare root.bindings) := by
  obtain ⟨_, c₁, henter, hrest⟩ := exists_of_bind_ok (p := enter root) h
  obtain ⟨_, c₂, hbindings, hstage⟩ :=
    exists_of_bind_ok (p := root.bindings.forM enterBinding) (c := .initial name) henter
  cases hstage
  obtain ⟨c₃, hstatements, rfl⟩ := enterBindings_split root.bindings hbindings
  have hnone : c₃.expressions = [] := (statements_blind _).expressions hstatements
  have henter₀ : enter root₀ (.initial name) = .ok () { c₃ with stage := .entered } := by
    rw [← hroot] at hstatements
    exact bind_of_ok (p := root₀.bindings.forM enterBinding) (c := .initial name) hstatements
  refine ⟨c.withExpressions [], ?_, rfl, ?_⟩
  · refine (bind_of_ok (p := enter root₀) henter₀).trans ?_
    have hself : { c₃ with stage := .entered } = { c₃ with stage := .entered, expressions := [] } := by
      rw [← hnone]
    rw [hself]
    exact furnishing_blind.at_end hrest []
  · have hkept : c.expressions = Tree.bare root.bindings :=
      furnishing_blind.expressions hrest
    rw [← hkept]
    rfl

end Build

namespace Context

variable {name : String} {root root₀ : Expr} {i i₀ m m₀ c c' c₀ : Context} {s s₀ : Inference.State}
  {xs xs' : List Expr}

/-- Two contexts in which a module is the same, whatever is reported. -/
structure Tells (c c' : Context) : Prop where
  declared : c'.declared = c.declared
  values : c'.values = c.values
  constants : c'.constants = c.constants
  module : c'.module = c.module
  graph : c'.graph = c.graph

theorem Tells.report (h : Tells c c') : (Report.ofContext c').module = (Report.ofContext c).module ∧
    (Report.ofContext c').types = (Report.ofContext c).types ∧
    (Report.ofContext c').values = (Report.ofContext c).values := by
  simp only [Report.ofContext, constant?, h.declared, h.values, h.constants, h.module, h.graph, and_self]

/-- What is reported of a module to whose statements some bare expressions are added. -/
def reportsWith (m : Context) (s : Inference.State) (xs : List Expr) : List Diagnostic :=
  let alone := Inference.State.alone s.graph s.scope
  m.diagnostics ++ (s.diagnostics ++ xs.flatMap (fun e => (alone e).diagnostics) ++
    (Span.sort (s.blocked.map (fun w => w.2.1) ++
      xs.flatMap fun e => (alone e).blocked.map fun w => w.2.1)).map fun origin => ⟨origin, .unresolvedType⟩) ++
    ((m.concluded s).folded m.values).foldingFaults ++
    (Build.uninferred m.values s.graph).map fun v => ⟨v.definition.node.span, .cannotInfer v.member.name⟩

theorem reportsWith_sublist (h : xs'.Sublist xs) :
    (m.reportsWith s xs').Sublist (m.reportsWith s xs) := by
  have hreports := h.flatMap fun e => (Inference.State.alone s.graph s.scope e).diagnostics
  have horigins := h.flatMap fun e =>
    (Inference.State.alone s.graph s.scope e).blocked.map fun w => w.2.1
  have hsorted := (Span.sort_sublist (horigins.append_left (s.blocked.map fun w => w.2.1))).map
    fun origin => (⟨origin, .unresolvedType⟩ : Diagnostic)
  exact ((((hreports.append_left _).append hsorted).append_left _).append_right _).append_right _

theorem ended_added (h : s₀.Added m₀.inferred xs s) :
    Tells (m₀.ended s₀) ((m₀.withExpressions xs).ended s) ∧
      ((m₀.withExpressions xs).ended s).diagnostics = m₀.reportsWith s₀ xs := by
  have hany : ∀ v ∈ m₀.values, ∀ e, v.definition.value = some e →
      (((m₀.withExpressions xs).concluded s).inference.typeOf? e.id).any
        (fun type => !((m₀.withExpressions xs).concluded s).graph.isError type) =
      ((m₀.concluded s₀).inference.typeOf? e.id).any fun type => !(m₀.concluded s₀).graph.isError type := by
    intro v hv e he
    show (s.typeOf? e.id).any (fun type => !s.graph.isError type) = _
    rw [h.graph, h.typed e (List.mem_append_left _ (List.mem_append_left _ (List.mem_flatMap.mpr ⟨v, hv, ?_⟩)))]
    · rfl
    rw [ModuleValue.inferred, he]
    exact Tree.mem_reachedOf.mpr ⟨e, by simp, Tree.mem_reached_self e⟩
  have hrecorded : ∀ v ∈ m₀.values, ((m₀.withExpressions xs).concluded s).recorded? v =
      (m₀.concluded s₀).recorded? v := by
    intro v hv
    cases he : v.definition.value with
    | none => simp only [recorded?, he, Option.bind_none]
    | some e => simp only [recorded?, he, Option.bind_some, hany v hv e he]
  have hfaults : ∀ v ∈ m₀.values, ((m₀.withExpressions xs).concluded s).faultsOf v =
      (m₀.concluded s₀).faultsOf v := by
    intro v hv
    cases he : v.definition.value with
    | none => simp only [faultsOf, he, Option.toList_none, List.flatMap_nil]
    | some e => simp only [faultsOf, he, Option.toList_some, List.flatMap_singleton, hany v hv e he]
  have hmodule : (m₀.withExpressions xs).moduleType s.graph = m₀.moduleType s₀.graph := by
    rw [h.graph]
    rfl
  refine ⟨⟨rfl, rfl, ?_, ?_, ?_⟩, ?_⟩
  · exact congrArg (m₀.constants ++ ·) (List.filterMap_congr hrecorded)
  · exact congrArg (fun p => some p.1) hmodule
  · exact congrArg Prod.snd hmodule
  · have hfolded : (((m₀.withExpressions xs).concluded s).folded m₀.values).foldingFaults =
        ((m₀.concluded s₀).folded m₀.values).foldingFaults :=
      congrArg (m₀.foldingFaults ++ ·) (List.flatMap_congr hfaults)
    show m₀.diagnostics ++ (Inference.finish s).diagnostics ++
      (((m₀.withExpressions xs).concluded s).folded m₀.values).foldingFaults ++
      (Build.uninferred m₀.values s.graph).map _ = _
    rw [hfolded, h.graph]
    simp only [Inference.finish, reportsWith, h.reports, h.origins]

namespace Outcome

/-- A module is its statements, to which its bare expressions are added. -/
theorem added (h₀ : Outcome name root₀ i₀ m₀ s₀ c₀) (h : Outcome name root i m s c)
    (hroot : root₀.bindings = Tree.statements root.bindings) :
    Tells c₀ c ∧ c.diagnostics = m₀.reportsWith s₀ (Tree.bare root.bindings) := by
  obtain ⟨_, happraise, hnone, rfl⟩ := Build.appraise_split hroot h.appraise_eq
  cases happraise.symm.trans h₀.appraise_eq
  have hrun₀ := h₀.run
  have hrun := h.run
  have hlinear₀ := h₀.appraised.ready_restTasks.linear
  have hlinear := h.appraised.ready_restTasks.linear
  rw [restTasks, hnone, List.map_nil, List.append_nil] at hrun₀ hlinear₀
  have hsplit : (m₀.withExpressions (Tree.bare root.bindings)).restTasks =
      m₀.fallbacks.flatMap fallbackTasks ++ (Tree.bare root.bindings).map .infer := rfl
  rw [hsplit] at hrun hlinear
  have hinference : (m₀.withExpressions (Tree.bare root.bindings)).inference =
    m₀.inference := rfl
  rw [hinference] at hrun hlinear
  rw [Inference.State.run_append, hrun₀] at hrun
  obtain ⟨-, htally⟩ := hlinear₀.run hrun₀
  obtain ⟨s', hrun', hadded⟩ := h₀.attested.followed.infer_each (Tree.bare root.bindings)
    fun n => by
      have hn := hlinear.once n
      rw [Inference.owed_append] at hn
      rw [htally]
      omega
  cases hrun'.symm.trans hrun
  rw [h₀.ended, h.ended]
  exact ended_added hadded

end Outcome

theorem Tells.symm (h : Tells c c') : Tells c' c :=
  ⟨h.declared.symm, h.values.symm, h.constants.symm, h.module.symm, h.graph.symm⟩

theorem Tells.trans {c'' : Context} (h : Tells c c') (h' : Tells c' c'') : Tells c c'' :=
  ⟨h'.declared.trans h.declared, h'.values.trans h.values, h'.constants.trans h.constants,
    h'.module.trans h.module, h'.graph.trans h.graph⟩

end Context

/-- Of two modules with the same statements, one with fewer bare expressions reports less at most. -/
theorem Build.build_fewer {root' : Expr} (name : String)
    (hstatements : Tree.statements root'.bindings = Tree.statements root.bindings)
    (hbare : (Tree.bare root'.bindings).Sublist (Tree.bare root.bindings))
    (honce : ∀ n, Tree.count n (Tree.preorderOf root.bindings) ≤ 1)
    (honce' : ∀ n, Tree.count n (Tree.preorderOf root'.bindings) ≤ 1) :
    ∃ t c t' c', build root (.initial name) = .ok t c ∧ build root' (.initial name) = .ok t' c' ∧
      Context.Tells c c' ∧ c'.diagnostics.Sublist c.diagnostics := by
  have hflat : Tree.bindingsOf (Tree.statements root.bindings) = Tree.statements root.bindings :=
    Document.bindingsOf_eq_self fun x hx =>
      Tree.ne_sequence_of_mem_bindingsOf [root]
        (List.mem_append_left _ (List.mem_of_mem_filter hx))
  have honce₀ : ∀ n, Tree.count n (Tree.preorderOf (Tree.bindingsOf (Tree.statements root.bindings))) ≤ 1 := by
    intro n
    rw [hflat, Tree.preorderOf_eq_flatMap]
    have hsublist : (Tree.statements root.bindings).Sublist root.bindings := List.filter_sublist
    have hle := (hsublist.flatMap Node.preorder).countP_le (p := fun x => x.id = n)
    rw [← Tree.preorderOf_eq_flatMap root.bindings] at hle
    exact Nat.le_trans hle (honce n)
  obtain ⟨_, c₀, -, i₀, m₀, s₀, h₀⟩ :=
    build_ends name (.sequence default (Tree.statements root.bindings)) honce₀
  obtain ⟨t, c, hbuild, i, m, s, h⟩ := build_ends name root honce
  obtain ⟨t', c', hbuild', i', m', s', h'⟩ := build_ends name root' honce'
  obtain ⟨htells, hreports⟩ := h₀.added h hflat
  obtain ⟨htells', hreports'⟩ := h₀.added h' (hflat.trans hstatements.symm)
  refine ⟨t, c, t', c', hbuild, hbuild', htells.symm.trans htells', ?_⟩
  rw [hreports, hreports']
  exact Context.reportsWith_sublist hbare

namespace Document

open Binder.Tree
open Binder.Document.Numbering

variable {before after : List (Node (Option Span))} {e : Node (Option Span)} {xs ys : List Expr}
  {k k' j j' : Nat}

theorem isStatement_of_erase {x : Expr} (h : x.erase = e.shape)
    (hsequence : ∀ note items, e ≠ .sequence note items) : x.isStatement = e.isStatement := by
  have herase : x.erase.isStatement = x.isStatement := by cases x <;> rfl
  rw [← herase, h]
  cases e with
  | sequence note items => exact absurd rfl (hsequence note items)
  | _ => rfl

/-- Numbering without a node leaves out what was made of it; the others get other numbers. -/
theorem exists_omitted (h : lowerNodes (before ++ e :: after) k = .ok xs k')
    (h' : lowerNodes (before ++ after) j = .ok ys j') : ∃ xs₁ x xs₂, xs = xs₁ ++ x :: xs₂ ∧
      x.erase = e.shape ∧ List.Forall₂ Renumbered (xs₁ ++ xs₂) ys := by
  rw [lowerNodes_append] at h h'
  obtain ⟨xs₁, k₁, hxs₁, h⟩ := of_bind h
  obtain ⟨zs, k₂, hzs, h⟩ := of_bind h
  obtain ⟨rfl, rfl⟩ := of_pure h
  obtain ⟨x, k₃, hx, h⟩ := of_bind (x := lowerNode e) hzs
  obtain ⟨xs₂, k₄, hxs₂, h⟩ := of_bind h
  obtain ⟨rfl, rfl⟩ := of_pure h
  obtain ⟨ys₁, j₁, hys₁, h'⟩ := of_bind h'
  obtain ⟨ys₂, j₂, hys₂, h'⟩ := of_bind h'
  obtain ⟨rfl, rfl⟩ := of_pure h'
  obtain ⟨_, _, heq, hsame₁⟩ := likewise_lowerNodes before hxs₁ j
  cases heq.symm.trans hys₁
  obtain ⟨_, _, heq, hsame₂⟩ := likewise_lowerNodes after hxs₂ j₁
  cases heq.symm.trans hys₂
  exact ⟨xs₁, x, xs₂, rfl, ((lowers_node e).of_ok hx).2.2.2, List.rel_append hsame₁ hsame₂⟩

theorem exists_lower_without {d d' : Document} (h : d.lower k = .ok root k')
    (hlength : 2 ≤ d.bindings.length) (hbindings : d.bindings = before ++ e :: after)
    (hbindings' : d'.bindings = before ++ after) (j : Nat) : ∃ root' j', d'.lower j = .ok root' j' := by
  obtain ⟨hfilled, -, -⟩ := erase_lower h
  rw [hbindings] at hfilled hlength
  refine exists_lower_of_isFilled ?_ ?_ j
  · rw [hbindings']
    simp only [preorderOf_append, preorderOf, List.all_append, Bool.and_eq_true] at hfilled ⊢
    exact ⟨hfilled.1, hfilled.2.2⟩
  · rw [hbindings']
    intro hnil
    obtain ⟨rfl, rfl⟩ := List.append_eq_nil_iff.mp hnil
    exact absurd hlength (by simp)

theorem bindingsOf_middle (hsequence : ∀ note items, e ≠ .sequence note items) :
    bindingsOf (before ++ e :: after) = bindingsOf before ++ e :: bindingsOf after := by
  rw [bindingsOf_append, bindingsOf]
  cases e with
  | sequence note items => exact absurd rfl (hsequence note items)
  | _ => rfl

end Document

open Document in
/-- Bare expressions do not interfere. A document from whose bindings one is left out that neither
declares nor extends anything, and is no sequence either, has the same module with the same types and
values, and of what is reported at most something is missing. -/
theorem bind_without_bare {d d' : Document} {k k' : Nat} {root : Expr}
    {before after : List (Node (Option Span))} {e : Node (Option Span)} (name : String)
    (hd : d.lower k = .ok root k') (hlength : 2 ≤ d.bindings.length)
    (hbindings : d.bindings = before ++ e :: after) (hbindings' : d'.bindings = before ++ after)
    (hbare : e.isStatement = false) (hsequence : ∀ note items, e ≠ .sequence note items) :
    ∃ report report', bind d name = .ok report ∧ bind d' name = .ok report' ∧
      report'.module = report.module ∧ report'.types = report.types ∧
      report'.values = report.values ∧ report'.diagnostics.Sublist report.diagnostics := by
  obtain ⟨root', i, hd'⟩ := exists_lower_without hd hlength hbindings hbindings' 0
  obtain ⟨xs, j, t, c, hxs, hself, hbuild, hbind⟩ := bind_eq_build hd name
  obtain ⟨ys, j', t', c', hys, hself', hbuild', hbind'⟩ := bind_eq_build hd' name
  rw [hbindings, bindingsOf_middle hsequence] at hxs
  rw [hbindings', Tree.bindingsOf_append] at hys
  have honce := ((lowers_nodes _).of_ok hxs).2.2.1.count_le_one
  have honce' := ((lowers_nodes _).of_ok hys).2.2.1.count_le_one
  obtain ⟨xs₁, x, xs₂, rfl, hx, hsame⟩ := exists_omitted hxs hys
  have hx := (isStatement_of_erase hx hsequence).trans hbare
  have hfewer : (xs₁ ++ xs₂).Sublist (xs₁ ++ x :: xs₂) := (List.sublist_cons_self x xs₂).append_left xs₁
  have hflat : Tree.bindingsOf (xs₁ ++ xs₂) = xs₁ ++ xs₂ := bindingsOf_eq_self fun y hy =>
    Tree.ne_sequence_of_mem_bindingsOf _ (hself.symm ▸ hfewer.subset hy)
  have honce₁ : ∀ n, Tree.count n (Tree.preorderOf (xs₁ ++ xs₂)) ≤ 1 := by
    intro n
    have hn := honce n
    simp only [Tree.preorderOf_append, Tree.preorderOf, Tree.count_append] at hn ⊢
    omega
  -- Without the expression the other bindings get other numbers, which does not show in the report.
  obtain ⟨ν, hν⟩ := Tree.exists_renumbering hsame honce₁ honce'
  have hbindings : (Node.sequence default ys).bindings = (Node.sequence default (xs₁ ++ xs₂)).bindings.map
      (Renumbering.renode ν.toEmbedding).expr := by
    rw [Node.bindings, Node.bindings, hself', hflat]
    exact hν
  obtain ⟨t₁, c₁, c₂, hbuild₁, hbuild₂, hmirrored⟩ := Build.build_renumbered name hbindings
    (by rw [Node.bindings, hflat]; exact honce₁)
  cases hbuild'.symm.trans hbuild₂
  have hstatements : Tree.statements (Node.sequence default (xs₁ ++ xs₂)).bindings =
      Tree.statements (Node.sequence default (xs₁ ++ x :: xs₂)).bindings := by
    rw [Node.bindings, Node.bindings, hself, hflat]
    simp [Tree.statements, hx]
  obtain ⟨_, _, _, _, hc, hc₁, htells, hreports⟩ := Build.build_fewer name hstatements
    (by rw [Node.bindings, Node.bindings, hself, hflat]; exact hfewer.filter _)
    (by rw [Node.bindings, hself]; exact honce) (by rw [Node.bindings, hflat]; exact honce₁)
  cases hbuild.symm.trans hc
  cases hbuild₁.symm.trans hc₁
  obtain ⟨hmodule, htypes, hvalues⟩ := htells.report
  refine ⟨_, _, hbind, hbind', ?_⟩
  rw [hmirrored.report]
  exact ⟨hmodule, htypes, hvalues, hreports.map _⟩

/-- A name that means nothing stands between two values, the first of which needs the second. -/
def strayName : Document where
  bindings := [.definition none false "first" none (some (.ident none "second")), .ident none "missing",
    .definition none true "second" none (some (.literal none (.boolean true)))]

def strayRoot : Expr := strayName.root

def withoutStrayName : Document where
  bindings := [.definition none false "first" none (some (.ident none "second")),
    .definition none true "second" none (some (.literal none (.boolean true)))]

theorem bind_without_bare_strayName : strayName.lower 0 = .ok strayRoot 7 ∧
    ∃ report report', bind strayName "main" = .ok report ∧ bind withoutStrayName "main" = .ok report' ∧
      report'.module = report.module ∧ report'.types = report.types ∧
      report'.values = report.values ∧ report'.diagnostics.Sublist report.diagnostics :=
  have hlower : strayName.lower 0 = .ok strayRoot 7 := rfl
  have hbindings : strayName.bindings = [_] ++ .ident none "missing" :: [_] := rfl
  ⟨hlower, bind_without_bare "main" hlower (by decide) hbindings rfl rfl nofun⟩

end Binder
