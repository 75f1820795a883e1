import Binder.Proofs.Inference.Verdict
import Binder.Proofs.Module.Concluding
import Binder.Proofs.Module.Families

/-! What the passes of a build report. Values that cannot be inferred and types that stay unresolved are
reported at the very end and nowhere else; the names of the values that were accepted are distinct. -/
namespace Binder

open Binder.Tree (Expr Mark NodeId)

/-- Nothing is reported as left over. -/
def Prompt (reported : List Diagnostic) : Prop := ∀ d ∈ reported, d.fault.isLeftover = false

theorem Prompt.append {l r : List Diagnostic} (hl : Prompt l) (hr : Prompt r) : Prompt (l ++ r) := by
  intro d hd
  rcases List.mem_append.mp hd with hd | hd
  · exact hl d hd
  · exact hr d hd

theorem Prompt.singleton {span : Span} {fault : Fault} (h : fault.isLeftover = false) :
    Prompt [⟨span, fault⟩] := by
  intro d hd
  rw [List.mem_singleton.mp hd]
  exact h

namespace Constant

theorem prompt_unary (op : String) (expects : TypeCode) (span : Span) (c : Constant) :
    Prompt (unary op expects span c).2 := by
  unfold unary
  split
  · nofun
  · nofun
  · split
    · nofun
    · exact .singleton rfl

theorem prompt_binary (op : String) (span right : Span) (l r : Constant) :
    Prompt (binary op span right l r).2 := by
  unfold binary
  split
  · nofun
  · nofun
  · nofun
  · nofun
  · nofun
  · split
    · nofun
    · split
      · nofun
      · split
        · exact .singleton rfl
        · split
          · nofun
          · exact .singleton rfl
          · nofun

theorem prompt_eval (e : Expr) : Prompt (eval e).2 := by
  fun_induction eval e with
  | case1 => exact List.forall_mem_nil _
  | case2 => exact List.forall_mem_nil _
  | case3 note mark op operand expects hop c r ih => exact ih.append (prompt_unary _ _ _ _)
  | case4 note _ op left right l r c ihl ihr => exact (ihl.append ihr).append (prompt_binary _ _ _ _ _)
  | case5 => exact List.forall_mem_nil _

end Constant

namespace Inference

variable {v : Verdict} {s : State}

namespace Verdict

theorem prompt_fault {node : Mark} (h : ∀ fault ∈ v.fault, fault.isLeftover = false) :
    Prompt (v.fault.toList.map fun fault => ⟨node.span, fault⟩) := by
  intro d hd
  obtain ⟨fault, hfault, rfl⟩ := List.mem_map.mp hd
  exact h fault (Option.mem_toList.mp hfault)

theorem prompt_ofName (scope : Scope Declaration) (name : String) :
    ∀ fault ∈ (ofName scope name).fault, fault.isLeftover = false := by
  unfold ofName
  split <;> simp [rejected, Fault.isLeftover]

theorem prompt_ofMember (g : TypeGraph) (member : String) (t : TypeId) :
    ∀ fault ∈ (ofMember g member t).fault, fault.isLeftover = false := by
  unfold ofMember
  split
  · simp [silent]
  · split <;> simp [rejected, Fault.isLeftover]

theorem prompt_ofCall (g : TypeGraph) (names : List (Option String)) (types : List TypeId) :
    ∀ fault ∈ (ofCall g names types).fault, fault.isLeftover = false := by
  unfold ofCall
  split
  · simp [silent]
  · split
    · simp [silent]
    · split
      · simp [rejected, Fault.isLeftover]
      · split <;> simp [rejected, Fault.isLeftover]

end Verdict

namespace State

variable {s s' : State} {task : Task} {new : List Task}

section

variable (h : Prompt s.diagnostics)
include h

theorem prompt_pronounce (node : Mark) (hv : ∀ fault ∈ v.fault, fault.isLeftover = false) :
    Prompt (s.pronounce node v).2.diagnostics := by
  rw [diagnostics_pronounce]
  exact h.append (Verdict.prompt_fault hv)

theorem prompt_mismatch (expected found : SymbolId) (origin : Span) :
    Prompt (s.mismatch expected found origin).diagnostics := by
  unfold mismatch
  split
  · exact h
  · exact h.append (.singleton rfl)

theorem prompt_infer (e : Expr) : Prompt (s.infer e).2.diagnostics := by
  cases e with
  | ident node name =>
    rw [infer_ident]
    exact prompt_pronounce h node (Verdict.prompt_ofName _ _)
  | literal | selection | call | namedArgument => exact h
  | sequence | definition | typeLiteral | arrayType | referenceType | extension =>
    exact h.append (.singleton rfl)

theorem prompt_onBound (next : WhenBound) (t : TypeId) : Prompt (s.onBound next t).2.diagnostics := by
  cases next with
  | select node member =>
    simp only [onBound, select_eq_pronounce]
    exact prompt_pronounce h node (Verdict.prompt_ofMember _ _ _)
  | deliver call slot =>
    simp only [onBound, deliver]
    split
    · exact h
    · split
      · rw [resolve_eq_pronounce]
        apply prompt_pronounce
        · exact h
        · exact Verdict.prompt_ofCall _ _ _
      · exact h
  | compare expected origin =>
    simp only [onBound]
    split
    · exact h
    · exact prompt_mismatch h _ _ _
  | observe => exact h

theorem prompt_step (hs : s.step task = .ok (new, s')) : Prompt s'.diagnostics := by
  cases move_step hs with
  | infer e => exact prompt_infer h e
  | bound next t => exact prompt_onBound h next t
  | mismatch => exact prompt_mismatch h _ _ _
  | _ => exact h

end

theorem prompt_run (s : State) (ts : List Task) (h : Prompt s.diagnostics) :
    Prompt (s.run ts).1.diagnostics :=
  run_invariant (P := fun s => Prompt s.diagnostics) prompt_step s ts h

end State

theorem prompt_unify (h : Prompt s.diagnostics) (a b : SymbolId) :
    Prompt (Inference.unify s a b).1.diagnostics := by
  unfold Inference.unify
  split
  next => exact h
  next hu =>
    obtain ⟨graph, groups, -, rfl⟩ := State.unify_eq hu
    exact State.prompt_run _ _ h

theorem prompt_bound (h : Prompt s.diagnostics) (symbol : SymbolId) :
    Prompt (Inference.bound s symbol).1.diagnostics := by
  apply State.prompt_run
  exact h

end Inference

namespace Context

/-- Nothing has been reported as left over. -/
structure Preliminary (c : Context) : Prop where
  reported : Prompt c.diagnostics
  inferred : Prompt c.inference.diagnostics
  folded : Prompt c.foldingFaults

theorem preliminary_named (name : String) (bindings : List Expr) :
    (named name bindings).Preliminary where
  reported d hd := by
    rw [(accepts_named name bindings).reports] at hd
    obtain ⟨e, -, rfl⟩ := List.mem_map.mp hd
    rfl
  inferred := nofun
  folded := nofun

end Context

namespace Build

open Context

theorem withInference_preserves {α : Type} {f : Inference.State → Inference.Outcome α}
    (hf : ∀ s, Prompt s.diagnostics → Prompt (f s).1.diagnostics) :
    Preserves Preliminary (withInference f) :=
  .withInference fun c hc => { hc with inferred := hf c.inference hc.inferred }

theorem preliminary_family : Family (Preserves Preliminary) fun _ => True where
  pure := .pure
  bind := .bind
  read _ hf := .bind .get hf
  report _ _ hfault := .modify fun _ hc => { hc with reported := hc.reported.append (.singleton hfault) }
  fold e := .modifyGet fun _ hc => { hc with folded := hc.folded.append (Constant.prompt_eval e) }
  newSymbol _ := .modifyGet fun _ hc => { hc with }
  newAnonymous _ := .modifyGet fun _ hc => { hc with }
  pledge _ _ := .modify fun _ hc => { hc with }
  write _ _ _ _ := .withBuilder fun _ _ _ hc => { hc with }
  newBuilder _ _ _ hf := Preserves.bind (.modifyGet fun _ hc => { hc with }) fun id => hf id trivial
  addNested _ _ _ := .withBuilder fun _ _ _ hc => { hc with }
  finishType id := by
    apply Preserves.get.bind
    intro c
    split
    · exact .pure _
    · apply Preserves.bind (.modifyGet fun _ hc => { hc with })
      intro b
      apply Preserves.bind (.withBuilder fun _ _ _ hc => { hc with })
      intro _
      exact withInference_preserves fun s hs => Inference.prompt_bound hs _

/-- Nothing is reported as left over while a module is entered and its types are filled. -/
theorem preliminary_of_furnish {name : String} {root : Expr} {c : Context}
    (h : (do enter root; furnish) (Context.initial name) = .ok () c) : c.Preliminary := by
  rw [bind_of_ok (enter_eq name root), furnish, bind_of_ok (declareValues_entered ..)] at h
  have hpasses := preliminary_family.makeTypes (fun _ => trivial) (.modify fun _ hc => { hc with })
  exact hpasses.at_end (preliminary_named name root.bindings) h

theorem inferValue_preserves (v : ModuleValue) : Preserves Preliminary (inferValue v) :=
  preliminary_family.inferValue
    (fun a b => withInference_preserves fun _ hs => Inference.prompt_unify hs a b)
    (fun ts => withInference_preserves fun s hs => Inference.State.prompt_run s ts hs) v

end Build

namespace Context.Outcome

variable {name : String} {root : Expr} {i m c : Context} {s : Inference.State}

theorem preliminary (h : Outcome name root i m s c) : m.Preliminary :=
  (Build.Preserves.forM _ fun v _ => Build.inferValue_preserves v).at_end
    (Build.preliminary_of_furnish h.furnishes) h.valued

/-- The order in which a build reports: what was found on the way, expressions without a type, faults of
folding, and values without a type. -/
theorem reports (h : Outcome name root i m s c) : ∃ early faults, Prompt early ∧ Prompt faults ∧
    c.diagnostics = early ++ ((Span.sort (s.blocked.map fun w => w.2.1)).map
      fun origin => ⟨origin, .unresolvedType⟩) ++ faults ++
      (Build.uninferred m.values s.graph).map
        fun v => ⟨v.definition.node.span, .cannotInfer v.member.name⟩ := by
  have hprompt := h.preliminary
  have hinferred := Inference.State.prompt_run m.inference m.restTasks hprompt.inferred
  rw [h.run] at hinferred
  have hfaults : Prompt (m.values.flatMap (m.concluded s).faultsOf) := by
    intro d hd
    obtain ⟨v, -, hd⟩ := List.mem_flatMap.mp hd
    obtain ⟨e, -, hd⟩ := List.mem_flatMap.mp hd
    split at hd
    · exact Constant.prompt_eval e d hd
    · cases hd
  refine ⟨_, _, hprompt.reported.append hinferred, hprompt.folded.append hfaults, ?_⟩
  rw [h.ended]
  simp only [Context.ended, folded, Inference.finish, List.append_assoc]
  rfl

end Context.Outcome
end Binder
