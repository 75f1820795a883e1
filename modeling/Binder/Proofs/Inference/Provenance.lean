import Binder.Proofs.Inference.Filing
import Binder.Proofs.Inference.Resume

/-! Where continuations come from. Whatever waits in a state of inference waits on behalf of an
expression that is being inferred: for the target of a selection, for an operand of a call or for the
value of a named argument. The types that a call has gathered are those of its operands. -/
namespace Binder

namespace Inference

open Binder.Tree (Expr Mark NodeId)

variable {E : List Expr}

theorem inferCharge_eq_count (n : NodeId) (e : Expr) :
    inferCharge (.toNode n) e = Tree.count n e.reached := by
  induction e using Tree.operands_induction with
  | h e ih => rw [inferCharge_eq, Tree.reached_eq, count_cons_eq, count_flatMap, total_congr ih]

/-- The inferred nodes have numbers of their own, and the operands of each are among them. -/
structure Inferable (E : List Expr) : Prop where
  operands : ∀ e ∈ E, ∀ x ∈ e.operands, x ∈ E
  distinct : ∀ x ∈ E, ∀ y ∈ E, x.id = y.id → x = y

theorem Inferable.reached (hE : Inferable E) {y : Expr} (x : Expr) (hx : x ∈ E)
    (hy : y ∈ x.reached) : y ∈ E := by
  induction x using Tree.operands_induction with
  | h x ih =>
    rcases Tree.mem_reached_iff.mp hy with rfl | ⟨z, hz, hbelow⟩
    · exact hx
    · exact ih z hz (hE.operands x hx z hz) hbelow

theorem eq_of_count_le_one (h : ∀ n, Tree.count n E ≤ 1) :
    ∀ x ∈ E, ∀ y ∈ E, x.id = y.id → x = y := by
  intro x hx y hy hid
  by_contra hne
  obtain ⟨l, r, rfl⟩ := List.append_of_mem hx
  have hone := h x.id
  have hrest : 0 < Tree.count x.id (l ++ r) := by
    apply List.countP_pos_iff.mpr
    refine ⟨y, ?_, by simp [hid]⟩
    simp only [List.mem_append, List.mem_cons] at hy ⊢
    rcases hy with hy | rfl | hy
    · exact .inl hy
    · exact absurd rfl hne
    · exact .inr hy
  simp only [Tree.count_append, count_cons_eq, Charge.toNode, ↓reduceIte] at hone hrest
  omega

theorem inferable_append {F : List Expr} (hE : ∀ e ∈ E, ∀ x ∈ e.operands, x ∈ E)
    (hF : ∀ e ∈ F, ∀ x ∈ e.operands, x ∈ F) (hcount : ∀ n, Tree.count n (E ++ F) ≤ 1) :
    Inferable (E ++ F) where
  operands := by
    intro e he x hx
    rcases List.mem_append.mp he with he | he
    · exact List.mem_append_left _ (hE e he x hx)
    · exact List.mem_append_right _ (hF e he x hx)
  distinct := eq_of_count_le_one hcount

namespace State

variable {E F : List Expr} {s s' : State} {task : Task} {ts rest new : List Task} {x : Expr}

/-- What a later state still has of an earlier one. -/
structure Carries (s s' : State) : Prop extends s.Outlasts s' where
  calls : ∀ {call : Nat} {gathering : Gathering}, s.calls[call]? = some gathering →
    ∃ gathering', s'.calls[call]? = some gathering' ∧ gathering'.call = gathering.call

theorem Carries.of_eq (htyped : s'.typed = s.typed) (hgrows : s.graph.Grows s'.graph)
    (hcalls : s'.calls = s.calls) : s.Carries s' where
  toOutlasts := .of_eq htyped hgrows
  calls hcall := ⟨_, hcalls ▸ hcall, rfl⟩

theorem carries_step (hs : s.step task = .ok (new, s')) : s.Carries s' := by
  refine ⟨outlasts_step hs, fun {call gathering} hcall => ?_⟩
  by_cases houtside : OutsideCalls task
  · exact ⟨gathering, (passes_step (m := .toSlot 0 0) houtside hs).calls ▸ hcall, rfl⟩
  · unfold OutsideCalls at houtside
    split at houtside
    · cases hs
      refine ⟨gathering, ?_, rfl⟩
      have hne : call ≠ s.calls.size := by
        rintro rfl
        simp at hcall
      simpa [infer, Array.getElem?_push, hne] using hcall
    next call' slot t =>
      obtain ⟨rfl, rfl⟩ := eq_of_ok hs
      cases hcall' : s.calls[call']? with
      | none => exact ⟨gathering, by rwa [onBound, State.deliver, hcall'], rfl⟩
      | some gathering' =>
        rw [onBound, (deliver_passes (m := .toSlot 0 0) hcall' slot t).2]
        by_cases hsame : call' = call
        · subst hsame
          cases hcall.symm.trans hcall'
          obtain ⟨hin, -⟩ := Array.getElem?_eq_some_iff.mp hcall
          exact ⟨_, Array.getElem?_setIfInBounds_self_of_lt hin, rfl⟩
        · exact ⟨gathering, by rw [Array.getElem?_setIfInBounds_ne hsame, hcall], rfl⟩
    · exact absurd trivial houtside

def Uses (E : List Expr) (s : State) (x : Expr) : WhenBound → Prop
  | .select node member => .selection node x member ∈ E
  | .deliver call slot => ∃ gathering target arguments, s.calls[call]? = some gathering ∧
      .call gathering.call target arguments ∈ E ∧ (target :: arguments)[slot]? = some x
  | .compare _ _ => True
  | .observe _ _ => False

def Attends (E : List Expr) (s : State) (node : NodeId) : WhenTyped → Prop
  | .resolve origin next => ∃ x ∈ E, x.id = node ∧ x.span = origin ∧ s.Uses E x next
  | .copy node' => ∃ note name value, .namedArgument note name value ∈ E ∧ note.id = node' ∧
      value.id = node
  | .initialise _ _ => ∃ x ∈ E, x.id = node
  | .observe _ _ => False

/-- The expressions that a task is there for. -/
def Traced (E : List Expr) (s : State) : Task → Prop
  | .infer e => e ∈ E
  | .pend node next => s.Attends E node next
  | .pendType symbol origin next => ∃ x ∈ E, s.typeOf? x.id = some symbol ∧ x.span = origin ∧
      s.Uses E x next
  | .typed next symbol => ∃ node, s.typeOf? node = some symbol ∧ s.Attends E node next
  | .bound next t => ∃ x ∈ E, s.resolved? x.id = some t ∧ s.Uses E x next
  | .record _ _ | .wake _ | .settle | .mismatch _ _ _ | .note _ => True
  | .act _ _ => False

/-- Everything that waits and everything that is due belongs to an inferred expression, and so does
every call. -/
structure Provenance (E : List Expr) (s : State) (ts : List Task) : Prop
    extends Inferable E, s.Throughout (s.Traced E) ts where
  files : ∃ C, C ⊆ E ∧ s.Files C

namespace Carries

variable (hs : s.Carries s')

include hs

theorem uses {next : WhenBound} (h : s.Uses E x next) : s'.Uses E x next := by
  cases next with
  | select | compare | observe => exact h
  | deliver call slot =>
    obtain ⟨gathering, target, arguments, hcall, hmem, hslot⟩ := h
    obtain ⟨gathering', hcall', hsame⟩ := hs.calls hcall
    exact ⟨gathering', target, arguments, hcall', hsame ▸ hmem, hslot⟩

theorem attends {node : NodeId} {next : WhenTyped} (h : s.Attends E node next) :
    s'.Attends E node next := by
  cases next with
  | copy | initialise | observe => exact h
  | resolve origin next =>
    obtain ⟨x, hx, hid, hspan, huses⟩ := h
    exact ⟨x, hx, hid, hspan, hs.uses huses⟩

theorem traced (h : s.Traced E task) : s'.Traced E task := by
  cases task with
  | infer | act => exact h
  | record | wake | settle | mismatch | note => trivial
  | pend => exact hs.attends h
  | pendType =>
    obtain ⟨x, hx, htyped, hspan, huses⟩ := h
    exact ⟨x, hx, hs.typed htyped, hspan, hs.uses huses⟩
  | typed =>
    obtain ⟨node, htyped, hattends⟩ := h
    exact ⟨node, hs.typed htyped, hs.attends hattends⟩
  | bound =>
    obtain ⟨x, hx, hresolved, huses⟩ := h
    exact ⟨x, hx, hs.resolved? hresolved, hs.uses huses⟩

theorem passesOn : PassesOn (s.Traced E) (s'.Traced E) s s' where
  later := hs.traced
  told h hsymbol := ⟨_, hsymbol, hs.attends h⟩
  shown := by
    rintro symbol origin next t ⟨x, hx, htyped, -, huses⟩ ht
    exact ⟨x, hx, Option.bind_eq_some_iff.mpr ⟨symbol, hs.typed htyped, ht⟩, hs.uses huses⟩
  resolve := by
    rintro origin next symbol ⟨node, htyped, x, hx, rfl, hspan, huses⟩
    exact ⟨x, hx, hs.typed htyped, hspan, hs.uses huses⟩
  wake _ := trivial
  settle := trivial

end Carries

namespace Provenance

variable {call slot : Nat} {gathering : Gathering} {t : TypeId}

theorem initial (hE : Inferable E) (g : TypeGraph) (scope : Scope Declaration) :
    (State.initial g scope).Provenance E [] where
  toInferable := hE
  waiting := nofun
  blocked := nofun
  tasks := nofun
  files := ⟨[], List.nil_subset E, rfl, fun h => by simp [State.initial] at h,
    fun h => by simp [State.initial] at h⟩

theorem mono (h : s.Provenance E ts) (hs : s.Carries s') (hcalls : s'.calls = s.calls)
    (hwaiting : s'.waiting = s.waiting) (hblocked : s'.blocked = s.blocked) :
    s'.Provenance E ts where
  toInferable := h.toInferable
  waiting w hw := hs.traced (h.waiting w (hwaiting ▸ hw))
  blocked w hw := hs.traced (h.blocked w (hblocked ▸ hw))
  tasks task htask := hs.traced (h.tasks task htask)
  files := by
    obtain ⟨C, hC, hfiles⟩ := h.files
    exact ⟨C, hC, hfiles.mono hs.toOutlasts hcalls⟩

theorem operands_eq (h : s.Provenance E ts) {node : Mark} {target target' : Expr}
    {arguments arguments' : List Expr} (hmem : .call node target arguments ∈ E)
    (hmem' : .call node target' arguments' ∈ E) : target' = target ∧ arguments' = arguments := by
  cases h.distinct _ hmem _ hmem' rfl
  exact ⟨rfl, rfl⟩

/-- The types that a call has gathered are those of its operands. -/
theorem calls (h : s.Provenance E ts) (hcall : s.calls[call]? = some gathering) :
    ∃ target arguments, .call gathering.call target arguments ∈ E ∧
      gathering.names = arguments.map Tree.Node.argumentName? ∧
      gathering.slots.length = arguments.length + 1 ∧
      ∀ {slot : Nat} {x t}, (target :: arguments)[slot]? = some x →
        gathering.slots[slot]? = some (some t) → s.resolved? x.id = some t := by
  obtain ⟨C, hC, hfiles⟩ := h.files
  obtain ⟨target, arguments, hknown, hnames, hlength⟩ := hfiles.calls hcall
  refine ⟨target, arguments, hC (List.mem_of_getElem? hknown), hnames, hlength, ?_⟩
  intro slot x t hx ht
  obtain ⟨e, he, hresolved⟩ := hfiles.slots hcall ht
  rw [operand?_eq hknown] at he
  cases hx.symm.trans he
  exact hresolved

theorem operand?_of_deliver {C : List Expr}
    (h : s.Provenance E (.bound (.deliver call slot) t :: rest)) (hC : C ⊆ E) (hfiles : s.Files C) :
    ∃ e, operand? C call slot = some e ∧ s.resolved? e.id = some t := by
  obtain ⟨x, -, hresolved, gathering, target, arguments, hcall, hmem, hx⟩ :=
    h.tasks _ List.mem_cons_self
  obtain ⟨target', arguments', hknown, -⟩ := hfiles.calls hcall
  obtain ⟨rfl, rfl⟩ := h.operands_eq hmem (hC (List.mem_of_getElem? hknown))
  exact ⟨x, (operand?_eq hknown).trans hx, hresolved⟩

/-- The last type that a call has waited for decides about it. -/
theorem verdict?_of_deliver (h : s.Provenance E (.bound (.deliver call slot) t :: rest))
    (hd : s.Delivering (.bound (.deliver call slot) t :: rest))
    (hcall : s.calls[call]? = some gathering) (hlast : (gathering.fill slot t).missing = 0) :
    ∃ target arguments, .call gathering.call target arguments ∈ E ∧
      s.verdict? (.call gathering.call target arguments) =
        some (.ofCall s.graph gathering.names ((gathering.fill slot t).slots.filterMap id)) := by
  obtain ⟨C, hC, hfiles⟩ := h.files
  obtain ⟨e, he, ht⟩ := h.operand?_of_deliver hC hfiles
  obtain ⟨target, arguments, hknown, hnames, -⟩ := hfiles.calls hcall
  obtain ⟨hin, -⟩ := Array.getElem?_eq_some_iff.mp hcall
  have hfull : (gathering.fill slot t).slots.countP Option.isNone = 0 := by
    rw [← (hd.missing_fill hcall).2, hlast]
  have hfilled : Files C { s with calls := s.calls.setIfInBounds call (gathering.fill slot t) } :=
    hfiles.fill hcall he ht (.of_eq rfl (.refl _)) rfl
  have hslots : (gathering.fill slot t).slots = (target :: arguments).map fun e => s.resolved? e.id :=
    hfilled.slots_eq (Array.getElem?_setIfInBounds_self_of_lt hin) hknown hfull
  refine ⟨target, arguments, hC (List.mem_of_getElem? hknown), ?_⟩
  simp only [verdict?]
  rw [← hslots, if_pos (all_isSome hfull), hnames]

theorem traced_of_mem_infer {e : Expr} (h : s.Provenance E (.infer e :: rest)) :
    ∀ u ∈ (s.infer e).1, (s.infer e).2.Traced E u := by
  intro u hu
  have hmem : e ∈ E := h.tasks _ List.mem_cons_self
  have hoperands := h.operands e hmem
  cases opens_of_mem_infer hu with
  | verdict => trivial
  | operand hx => exact hoperands _ hx
  | select => exact ⟨_, hoperands _ List.mem_cons_self, rfl, rfl, hmem⟩
  | @deliver node target x arguments i hx =>
    exact ⟨x, hoperands x (List.mem_of_getElem? hx), rfl, rfl, .start node arguments, target, arguments,
      by simp [infer], hmem, hx⟩
  | copy => exact ⟨_, _, _, hmem, rfl, rfl⟩

theorem step (h : s.Provenance E (task :: rest)) (hs : s.step task = .ok (new, s')) :
    s'.Provenance E (new ++ rest) := by
  have htask : s.Traced E task := h.tasks _ List.mem_cons_self
  refine { h with toThroughout := h.toThroughout.step hs (carries_step hs).passesOn ?_, files := ?_ }
  · intro hsource
    cases move_step hs with
    | infer => exact h.traced_of_mem_infer
    | bound next t =>
      intro u hu
      rcases of_mem_onBound hu with ⟨node, symbol, rfl⟩ | ⟨tag, acts, a, symbol, rfl, -⟩
      · trivial
      · obtain ⟨-, -, -, ⟨⟩⟩ := htask
    | copy => exact List.forall_mem_singleton.mpr trivial
    | @initialise _ _ _ unified => cases unified <;> simp [Traced]
    | observe => obtain ⟨-, -, ⟨⟩⟩ := htask
    | actInfer | actRecord | actPend | actPendType | actUnify | actBound => exact htask.elim
    | _ => exact hsource.elim
  · obtain ⟨C, hC, hfiles⟩ := h.files
    refine ⟨C ++ task.call?.toList, List.append_subset.mpr ⟨hC, ?_⟩, hfiles.step hs ?_⟩
    · intro e he
      unfold Task.call? at he
      split at he
      · cases List.mem_singleton.mp he
        exact htask
      · cases he
    · rintro call slot t rfl
      exact h.operand?_of_deliver hC hfiles

theorem run (h : s.Provenance E ts) (hrun : s.run ts = (s', .ok ())) : s'.Provenance E [] :=
  run_keeps step s ts h hrun

end Provenance

end State
end Inference
end Binder
