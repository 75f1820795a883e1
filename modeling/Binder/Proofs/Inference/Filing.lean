import Binder.Proofs.Inference.Ready

/-! What tasks are there for. A property of tasks holds of everything that waits and everything that is
due if each step passes it on. Calls file the types of their operands: the calls stand in the order of
their inference, and what has come in is the type of the operand in its place. -/
namespace Binder.Inference

open Binder.Tree (Expr Mark NodeId)

/-- The task neither waits nor lets go what has waited. -/
def Task.isSource : Task → Prop
  | .infer _ | .bound _ _ | .act _ _ => True
  | .typed (.resolve _ _) _ => False
  | .typed _ _ => True
  | _ => False

/-- The call that is inferred by doing a task. -/
def Task.call? : Task → Option Expr
  | .infer (.call node target arguments) => some (.call node target arguments)
  | _ => none

namespace State

variable {C C' : List Expr} {s s' : State} {task : Task} {ts rest new : List Task}
  {T T' : Task → Prop}
  {call slot : Nat} {gathering : Gathering} {t : TypeId} {e x : Expr}

/-- A property of tasks holds of all that are due, and of what waits as if it were due. -/
structure Throughout (T : Task → Prop) (s : State) (ts : List Task) : Prop where
  waiting : ∀ w ∈ s.waiting, T (.pend w.1 w.2)
  blocked : ∀ w ∈ s.blocked, T (.pendType w.1 w.2.1 w.2.2)
  tasks : ∀ task ∈ ts, T task

/-- A property of tasks is passed on from one state to the next. -/
structure PassesOn (T T' : Task → Prop) (s s' : State) : Prop where
  later : ∀ {task}, T task → T' task
  told : ∀ {node next symbol}, T (.pend node next) → s'.typeOf? node = some symbol →
    T' (.typed next symbol)
  shown : ∀ {symbol origin next t}, T (.pendType symbol origin next) →
    s'.graph.bound? symbol = some t → T' (.bound next t)
  resolve : ∀ {origin next symbol}, T (.typed (.resolve origin next) symbol) →
    T' (.pendType symbol origin next)
  wake : ∀ symbol, T' (.wake symbol)
  settle : T' .settle

theorem Throughout.step (h : s.Throughout T (task :: rest)) (hs : s.step task = .ok (new, s'))
    (hT : PassesOn T T' s s') (hnew : task.isSource → ∀ u ∈ new, T' u) :
    s'.Throughout T' (new ++ rest) := by
  have htask := h.tasks _ List.mem_cons_self
  refine ⟨fun w hw => ?_, fun w hw => ?_, List.forall_mem_append.mpr ⟨?_, fun u hu => ?_⟩⟩
  · rcases waiting_step hs hw with hold | rfl
    · exact hT.later (h.waiting w hold)
    · exact hT.later htask
  · rcases blocked_step hs hw with hold | ⟨rfl, -⟩
    · exact hT.later (h.blocked w hold)
    · exact hT.later htask
  · cases move_step hs with
    | @record node =>
      refine List.forall_mem_map.mpr fun w hw => ?_
      obtain ⟨hmem, hnode⟩ := List.mem_filter.mp hw
      have hnode : w.1 = node := by simpa using hnode
      exact hT.told (h.waiting w hmem) (by simp [typeOf?, hnode])
    | told hsymbol => exact List.forall_mem_singleton.mpr (hT.told htask hsymbol)
    | shown ht => exact List.forall_mem_singleton.mpr (hT.shown htask ht)
    | resolve => exact List.forall_mem_singleton.mpr (hT.resolve htask)
    | @wake symbol t ht =>
      refine List.forall_mem_map.mpr fun w hw => ?_
      obtain ⟨hmem, hsymbol⟩ := List.mem_filter.mp hw
      have hsymbol : w.1 = symbol := by simpa using hsymbol
      exact hT.shown (h.blocked w hmem) (hsymbol ▸ ht)
    | settle =>
      exact List.forall_mem_append.mpr ⟨List.forall_mem_map.mpr fun _ _ => hT.wake _,
        List.forall_mem_singleton.mpr hT.settle⟩
    | wait | block | sleep | rest | mismatch | note => exact List.forall_mem_nil _
    | _ => exact hnew trivial
  · exact hT.later (h.tasks u (List.mem_cons_of_mem task hu))

/-- Symbols of nodes and bindings of symbols are still there in a later state. -/
structure Outlasts (s s' : State) : Prop where
  typed : ∀ {node symbol}, s.typeOf? node = some symbol → s'.typeOf? node = some symbol
  grows : s.graph.Grows s'.graph

theorem outlasts_step (hs : s.step task = .ok (new, s')) : s.Outlasts s' :=
  ⟨typeOf?_step hs, (advances_step hs).grows⟩

theorem Outlasts.of_eq (htyped : s'.typed = s.typed) (hgrows : s.graph.Grows s'.graph) :
    s.Outlasts s' := by
  refine ⟨fun h => ?_, hgrows⟩
  rw [typeOf?, htyped]
  exact h

theorem Outlasts.resolved? (h : s.Outlasts s') {node : NodeId} (ht : s.resolved? node = some t) :
    s'.resolved? node = some t := by
  obtain ⟨symbol, hsymbol, hbound⟩ := Option.bind_eq_some_iff.mp ht
  exact Option.bind_eq_some_iff.mpr ⟨symbol, h.typed hsymbol, h.grows.bound hbound⟩

/-- The operand in a slot of one of some calls. -/
def operand? (C : List Expr) (call slot : Nat) : Option Expr :=
  (C[call]?).bind fun e => e.operands[slot]?

theorem operand?_eq (h : C[call]? = some x) : operand? C call slot = x.operands[slot]? := by
  rw [operand?, h, Option.bind_some]

theorem getElem?_of_prefix (h : C <+: C') (hx : C[call]? = some x) :
    C'[call]? = some x := by
  obtain ⟨more, rfl⟩ := h
  rw [List.getElem?_append_left (List.getElem?_eq_some_iff.mp hx).1, hx]

theorem operand?_of_prefix (h : C <+: C') (hx : operand? C call slot = some x) :
    operand? C' call slot = some x := by
  obtain ⟨e, he, hslot⟩ := Option.bind_eq_some_iff.mp hx
  exact Option.bind_eq_some_iff.mpr ⟨e, getElem?_of_prefix h he, hslot⟩

/-- The calls of a state are the given ones. What has come in is the type of the operand in its place. -/
structure Files (C : List Expr) (s : State) : Prop where
  size : s.calls.size = C.length
  calls : ∀ {call : Nat} {gathering : Gathering}, s.calls[call]? = some gathering →
    ∃ target arguments, C[call]? = some (.call gathering.call target arguments) ∧
      gathering.names = arguments.map Tree.Node.argumentName? ∧
      gathering.slots.length = arguments.length + 1
  slots : ∀ {call : Nat} {gathering : Gathering}, s.calls[call]? = some gathering →
    ∀ {slot : Nat} {t : TypeId}, gathering.slots[slot]? = some (some t) →
      ∃ e, operand? C call slot = some e ∧ s.resolved? e.id = some t

namespace Files

theorem mono (h : s.Files C) (hout : s.Outlasts s') (hcalls : s'.calls = s.calls) : s'.Files C where
  size := hcalls ▸ h.size
  calls hcall := h.calls (hcalls ▸ hcall)
  slots := by
    intro call gathering hcall slot t hslot
    obtain ⟨e, he, ht⟩ := h.slots (hcalls ▸ hcall) hslot
    exact ⟨e, he, hout.resolved? ht⟩

theorem infer_call (h : s.Files C) (node : Mark) (target : Expr) (arguments : List Expr) :
    (s.infer (.call node target arguments)).2.Files (C ++ [.call node target arguments]) := by
  have hcalls : ∀ {call : Nat} {gathering : Gathering},
      (s.infer (.call node target arguments)).2.calls[call]? = some gathering →
      s.calls[call]? = some gathering ∨ call = C.length ∧ gathering = .start node arguments := by
    intro call gathering hcall
    simp only [State.infer, Array.getElem?_push] at hcall
    split at hcall
    next heq =>
      cases hcall
      exact .inr ⟨heq.trans h.size, rfl⟩
    next => exact .inl hcall
  refine ⟨by simp [State.infer, h.size], ?_, ?_⟩
  · intro call gathering hcall
    rcases hcalls hcall with hold | ⟨rfl, rfl⟩
    · obtain ⟨target', arguments', hknown, hrest⟩ := h.calls hold
      exact ⟨target', arguments', getElem?_of_prefix (List.prefix_append ..) hknown, hrest⟩
    · exact ⟨target, arguments, by simp [Gathering.start], rfl, by simp [Gathering.start]⟩
  · intro call gathering hcall slot t hslot
    rcases hcalls hcall with hold | ⟨rfl, rfl⟩
    · obtain ⟨e, he, ht⟩ := h.slots hold hslot
      exact ⟨e, operand?_of_prefix (List.prefix_append ..) he, ht⟩
    · simp [Gathering.start, List.getElem?_replicate] at hslot

/-- Filing the type of an operand in its place. -/
theorem fill (h : s.Files C) (hcall : s.calls[call]? = some gathering)
    (he : operand? C call slot = some e) (ht : s.resolved? e.id = some t) (hout : s.Outlasts s')
    (hcalls : s'.calls = s.calls.setIfInBounds call (gathering.fill slot t)) : s'.Files C := by
  have hold : ∀ {call' : Nat} {gathering' : Gathering}, s'.calls[call']? = some gathering' →
      s.calls[call']? = some gathering' ∨ call' = call ∧ gathering' = gathering.fill slot t := by
    intro call' gathering' hcall'
    rw [hcalls, Array.getElem?_setIfInBounds] at hcall'
    split at hcall'
    next heq =>
      split at hcall'
      · cases hcall'
        exact .inr ⟨heq.symm, rfl⟩
      · cases hcall'
    next => exact .inl hcall'
  refine ⟨by rw [hcalls, Array.size_setIfInBounds, h.size], ?_, ?_⟩
  · intro call' gathering' hcall'
    rcases hold hcall' with hsame | ⟨rfl, rfl⟩
    · exact h.calls hsame
    · obtain ⟨target, arguments, hknown, hnames, hlength⟩ := h.calls hcall
      exact ⟨target, arguments, hknown, hnames, by simpa [Gathering.fill] using hlength⟩
  · intro call' gathering' hcall' slot' t' hslot
    rcases hold hcall' with hsame | ⟨rfl, rfl⟩
    · obtain ⟨x, hx, hresolved⟩ := h.slots hsame hslot
      exact ⟨x, hx, hout.resolved? hresolved⟩
    · by_cases hs : slot = slot'
      · subst hs
        simp only [Gathering.fill, List.getElem?_set, ↓reduceIte] at hslot
        split at hslot
        · cases hslot
          exact ⟨e, he, hout.resolved? ht⟩
        · cases hslot
      · simp only [Gathering.fill, List.getElem?_set_ne hs] at hslot
        obtain ⟨x, hx, hresolved⟩ := h.slots hcall hslot
        exact ⟨x, hx, hout.resolved? hresolved⟩

theorem step (h : s.Files C) (hs : s.step task = .ok (new, s'))
    (hoperand : ∀ {call slot t}, task = .bound (.deliver call slot) t →
      ∃ e, operand? C call slot = some e ∧ s.resolved? e.id = some t) :
    s'.Files (C ++ task.call?.toList) := by
  have hout := outlasts_step hs
  by_cases houtside : OutsideCalls task
  · have hnone : task.call? = none := by
      unfold Task.call?
      split
      · exact houtside.elim
      · rfl
    rw [hnone, Option.toList_none, List.append_nil]
    exact h.mono hout (passes_step (m := .toSlot 0 0) houtside hs).calls
  · unfold OutsideCalls at houtside
    split at houtside
    · obtain ⟨rfl, rfl⟩ := eq_of_ok hs
      exact h.infer_call ..
    next call slot t =>
      obtain ⟨rfl, rfl⟩ := eq_of_ok hs
      have hnone : (Task.bound (.deliver call slot) t).call? = none := rfl
      rw [hnone, Option.toList_none, List.append_nil]
      cases hcall : s.calls[call]? with
      | none => simpa only [onBound, State.deliver, hcall] using h
      | some gathering =>
        obtain ⟨e, he, ht⟩ := hoperand rfl
        exact h.fill hcall he ht hout (deliver_passes (m := .toSlot 0 0) hcall slot t).2
    · exact absurd trivial houtside

/-- Once nothing is missing, the types are those of all operands in order. -/
theorem slots_eq (h : s.Files C) (hcall : s.calls[call]? = some gathering)
    (hx : C[call]? = some x) (hfull : gathering.slots.countP Option.isNone = 0) :
    gathering.slots = x.operands.map fun e => s.resolved? e.id := by
  obtain ⟨target, arguments, hknown, -, hlength⟩ := h.calls hcall
  cases hx.symm.trans hknown
  apply List.ext_getElem?
  intro slot
  rw [List.getElem?_map]
  cases hslot : gathering.slots[slot]? with
  | none =>
    have hout : arguments.length + 1 ≤ slot := hlength ▸ List.getElem?_eq_none_iff.mp hslot
    rw [List.getElem?_eq_none (by simpa [Tree.Node.operands] using hout)]
    rfl
  | some content =>
    cases content with
    | none => exact absurd rfl (List.countP_eq_zero.mp hfull none (List.mem_of_getElem? hslot))
    | some t =>
      obtain ⟨e, he, ht⟩ := h.slots hcall hslot
      rw [operand?_eq hknown] at he
      rw [he, Option.map_some, ht]

end Files

/-- A type that comes in for a call fills an empty slot. -/
theorem Delivering.missing_fill (h : s.Delivering (.bound (.deliver call slot) t :: rest))
    (hcall : s.calls[call]? = some gathering) :
    (gathering.fill slot t).missing + 1 = gathering.missing ∧
      (gathering.fill slot t).missing = (gathering.fill slot t).slots.countP Option.isNone := by
  obtain ⟨gathering', hcall', hslot⟩ := h.slot_of_deliver
  cases hcall.symm.trans hcall'
  have hcount := countP_set_some t hslot
  have hmissing := h.missing hcall
  simp only [Gathering.fill]
  omega

end State
end Binder.Inference
