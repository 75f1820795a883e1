import Binder.Proofs.Inference.Awake
import Binder.Proofs.Inference.Provenance

/-! Nodes without a symbol. Between two runs, a node that was inferred and has no symbol waits for one of
its operands: the operand has no symbol either, or its symbol is unbound and the node is blocked on
it. So somewhere below it there is an operand whose symbol is unbound. -/
namespace Binder

/-- The operand of a node that has one and is no call. -/
def Tree.Node.sole? : Tree.Expr → Option Tree.Expr
  | .selection _ target _ => some target
  | .namedArgument _ _ value => some value
  | _ => none

theorem Tree.mem_operands_of_sole? {x y : Tree.Expr} (h : x.sole? = some y) : y ∈ x.operands := by
  cases x with
  | selection | namedArgument =>
    cases h
    exact List.mem_cons_self
  | literal | ident | call | sequence | definition | typeLiteral | arrayType | referenceType
  | extension => cases h

namespace Inference

open Binder.Tree (Expr Mark NodeId)

theorem exists_pos_of_total_pos {α : Type} {f : α → Nat} {l : List α} (h : 0 < total f l) :
    ∃ a ∈ l, 0 < f a := by
  induction l with
  | nil => cases h
  | cons a l ih =>
    by_cases ha : 0 < f a
    · exact ⟨a, List.mem_cons_self, ha⟩
    · rw [total_cons] at h
      obtain ⟨b, hb, hpos⟩ := ih (by omega)
      exact ⟨b, List.mem_cons_of_mem a hb, hpos⟩

namespace State

variable {E F : List Expr} {s s' : State} {ts : List Task} {x : Expr} {a b : SymbolId}
  {unified : Bool}

theorem Uses.widen (hsub : E ⊆ F) {next : WhenBound} (h : s.Uses E x next) : s.Uses F x next := by
  cases next with
  | select => exact hsub h
  | deliver =>
    obtain ⟨gathering, target, arguments, hcall, hmem, hslot⟩ := h
    exact ⟨gathering, target, arguments, hcall, hsub hmem, hslot⟩
  | compare | observe => exact h

theorem Attends.widen (hsub : E ⊆ F) {node : NodeId} {next : WhenTyped}
    (h : s.Attends E node next) : s.Attends F node next := by
  cases next with
  | resolve =>
    obtain ⟨x, hx, hid, hspan, huses⟩ := h
    exact ⟨x, hsub hx, hid, hspan, huses.widen hsub⟩
  | copy =>
    obtain ⟨note, name, value, hmem, hid, hvalue⟩ := h
    exact ⟨note, name, value, hsub hmem, hid, hvalue⟩
  | initialise =>
    obtain ⟨x, hx, hid⟩ := h
    exact ⟨x, hsub hx, hid⟩
  | observe => exact h

theorem Provenance.widen (h : s.Provenance E []) (hsub : E ⊆ F) (hF : Inferable F)
    (hts : ∀ task ∈ ts, s.Traced F task) : s.Provenance F ts where
  toInferable := hF
  waiting w hw := Attends.widen hsub (h.waiting w hw)
  blocked w hw := by
    obtain ⟨x, hx, htyped, hspan, huses⟩ := h.blocked w hw
    exact ⟨x, hsub hx, htyped, hspan, huses.widen hsub⟩
  tasks := hts
  files := by
    obtain ⟨C, hC, hfiles⟩ := h.files
    exact ⟨C, List.Subset.trans hC hsub, hfiles⟩

theorem exists_of_unify_ok (h : Inference.unify s a b = (s', .ok unified)) :
    ∃ s₁, s.unify a b = .ok (unified, s₁) ∧ s₁.run [.settle] = (s', .ok ()) := by
  unfold Inference.unify at h
  split at h
  · cases h
  next unified' s₁ hu =>
    obtain ⟨hs', hok⟩ := Prod.mk.inj h
    cases houtcome : (s₁.run [.settle]).2 with
    | error e =>
      rw [houtcome] at hok
      cases hok
    | ok =>
      rw [houtcome] at hok
      cases hok
      exact ⟨s₁, hu, Prod.ext hs' houtcome⟩

theorem Vigilant.begin (h : s.Vigilant []) (ts : List Task) : s.Vigilant ts where
  alert := h.alert.begin ts
  awake := h.awake.mono nofun

theorem Vigilant.settling (h : s.Vigilant []) (hu : s.unify a b = .ok (unified, s')) :
    s'.Vigilant [.settle] := by
  have hqueues := queues_unify hu
  obtain ⟨graph, groups, -, rfl⟩ := unify_eq hu
  exact ⟨⟨h.alert.untyped, fun _ => List.mem_cons_self⟩,
    (h.begin [.settle]).awake.queues hqueues rfl⟩

theorem Provenance.settling (h : s.Provenance E []) (hu : s.unify a b = .ok (unified, s')) :
    s'.Provenance E [.settle] := by
  have hgrows := (advances_unify hu).grows
  obtain ⟨graph, groups, -, rfl⟩ := unify_eq hu
  have hcarries : s.Carries { s with graph := graph, groups := groups } := .of_eq rfl hgrows rfl
  exact (h.mono hcarries rfl rfl rfl).widen (List.Subset.refl E) h.toInferable (by simp [Traced])

/-- The given nodes have been inferred as far as that is possible. -/
structure Followed (E : List Expr) (s : State) : Prop where
  provenance : s.Provenance E []
  vigilant : s.Vigilant []
  linear : s.Linear []
  counted : ∀ n, Tree.count n E ≤ s.tally n

namespace Followed

theorem initial (g : TypeGraph) (scope : Scope Declaration) : (State.initial g scope).Followed [] where
  provenance := .initial (E := []) ⟨nofun, nofun⟩ g scope
  vigilant := ⟨⟨nofun, fun hne => absurd rfl hne⟩, nofun⟩
  linear :=
    { slots := fun call slot => by simp [State.initial, held, vacant]
      missing := fun hcall => by simp [State.initial] at hcall
      once := fun _ => Nat.zero_le 1 }
  counted := fun _ => Nat.le_refl 0

theorem run (h : s.Followed E) (hF : ∀ e ∈ F, ∀ x ∈ e.operands, x ∈ F)
    (hlinear : s.Linear ts) (htraced : ∀ task ∈ ts, s.Traced (E ++ F) task)
    (howed : ∀ n, Tree.count n F ≤ owed (.toNode n) ts) (hrun : s.run ts = (s', .ok ())) :
    s'.Followed (E ++ F) := by
  obtain ⟨hlinear', htally⟩ := hlinear.run hrun
  have hcounted : ∀ n, Tree.count n (E ++ F) ≤ s'.tally n := by
    intro n
    have hE := h.counted n
    have hn := howed n
    rw [Tree.count_append, htally n]
    omega
  have hinferable : Inferable (E ++ F) := by
    apply inferable_append h.provenance.operands hF
    intro n
    have honce := hlinear'.once n
    have hn := hcounted n
    omega
  constructor
  · exact (h.provenance.widen (List.subset_append_left E F) hinferable htraced).run hrun
  · exact (h.vigilant.begin ts).run hrun
  · exact hlinear'
  · exact hcounted

theorem infer (h : s.Followed E) {e : Expr}
    (honce : ∀ n, inferCharge (.toNode n) e + s.tally n ≤ 1)
    (hrun : s.run [.infer e] = (s', .ok ())) : s'.Followed (E ++ e.reached) := by
  apply h.run ?_ ?_ ?_ ?_ hrun
  · intro x hx y hy
    exact Tree.operand_mem_reached hy e hx
  · apply h.linear.begin
    · intro call slot
      rw [owed_cons, owed_nil, Task.charge, inferCharge_eq_zero fun _ => rfl]
    · intro n
      have hn := honce n
      rw [owed_cons, owed_nil, Task.charge]
      omega
  · intro task htask
    rw [List.mem_singleton.mp htask]
    exact List.mem_append_right E (Tree.mem_reached_self e)
  · intro n
    rw [owed_cons, owed_nil, Nat.add_zero, Task.charge, inferCharge_eq_count]

theorem mono (h : s.Followed E) (hgrows : s.graph.Grows s'.graph)
    (hsame : s' = { s with graph := s'.graph })
    (hbound : ∀ w ∈ s.blocked, s'.graph.bound? w.1 = none) : s'.Followed E := by
  have hwaiting : s'.waiting = s.waiting := by rw [hsame]
  have hblocked : s'.blocked = s.blocked := by rw [hsame]
  have htyped : s'.typed = s.typed := by rw [hsame]
  have hcalls : s'.calls = s.calls := by rw [hsame]
  have hgroups : s'.groups = s.groups := by rw [hsame]
  constructor
  · exact h.provenance.mono (.of_eq htyped hgrows hcalls) hcalls hwaiting hblocked
  · constructor
    · constructor
      · rw [hwaiting]
        intro w hw
        rw [typeOf?, htyped]
        exact h.vigilant.alert.untyped w hw
      · rw [hgroups]
        exact h.vigilant.alert.settling
    · rw [Awake, hblocked]
      intro w hw
      exact .inl (hbound w hw)
  · exact h.linear.congr htyped hwaiting hblocked hcalls
  · intro n
    have hn := h.counted n
    simp only [tally, held, htyped, hwaiting, hblocked, hcalls] at hn ⊢
    exact hn

theorem unify (h : s.Followed E) (hu : Inference.unify s a b = (s', .ok unified)) :
    s'.Followed E := by
  obtain ⟨s₁, hu₁, hrun⟩ := exists_of_unify_ok hu
  obtain ⟨hlinear', htally⟩ := (h.linear.settling hu₁).run hrun
  refine ⟨(h.provenance.settling hu₁).run hrun, (h.vigilant.settling hu₁).run hrun, hlinear', ?_⟩
  intro n
  have hn := h.counted n
  have hsame : s₁.tally n = s.tally n := by
    obtain ⟨graph, groups, -, rfl⟩ := unify_eq hu₁
    rfl
  rw [htally n]
  omega

end Followed

/-- The operand that an inferred node without a symbol waits for: it has no symbol either, or the node
is blocked on its symbol. -/
def Stuck (s : State) (x : Expr) : Prop :=
  ∃ y ∈ x.operands, s.typeOf? y.id = none ∨ x.argumentName? = none ∧
    ∃ symbol next, s.typeOf? y.id = some symbol ∧ (symbol, y.span, next) ∈ s.blocked

namespace Followed

variable (h : s.Followed E) {call : Nat} {gathering : Gathering} {target : Expr}
  {arguments : List Expr}

include h

theorem untyped_of_waiting (hx : x ∈ E) {w : NodeId × WhenTyped} (hw : w ∈ s.waiting)
    (hcharge : 0 < w.2.charge (.toNode x.id)) : ∃ y, x.sole? = some y ∧ s.typeOf? y.id = none := by
  have hnone := h.vigilant.alert.untyped w hw
  have hattends := h.provenance.waiting w hw
  obtain ⟨node, next⟩ := w
  cases next with
  | resolve origin next =>
    obtain ⟨y, hy, rfl, -, huses⟩ := hattends
    cases next with
    | select note member =>
      simp only [WhenTyped.charge, WhenBound.charge, Charge.toNode] at hcharge
      split at hcharge
      next hid =>
        cases h.provenance.distinct _ huses x hx hid
        exact ⟨y, rfl, hnone⟩
      next => cases hcharge
    | deliver | compare => cases hcharge
    | observe => exact huses.elim
  | copy node' =>
    obtain ⟨note, name, value, hmem, rfl, rfl⟩ := hattends
    simp only [WhenTyped.charge, Charge.toNode] at hcharge
    split at hcharge
    next hid =>
      cases h.provenance.distinct _ hmem x hx hid
      exact ⟨value, rfl, hnone⟩
    next => cases hcharge
  | initialise => cases hcharge
  | observe => exact hattends.elim

theorem selection_of_blocked (hx : x ∈ E) {w : SymbolId × Span × WhenBound} (hw : w ∈ s.blocked)
    (hcharge : 0 < w.2.2.charge (.toNode x.id)) :
    ∃ note y member symbol, x = .selection note y member ∧ s.typeOf? y.id = some symbol ∧
      (symbol, y.span, .select note member) ∈ s.blocked := by
  obtain ⟨y, hy, htyped, hspan, huses⟩ := h.provenance.blocked w hw
  obtain ⟨symbol, origin, next⟩ := w
  cases next with
  | select note member =>
    simp only [WhenBound.charge, Charge.toNode] at hcharge
    split at hcharge
    next hid =>
      cases h.provenance.distinct _ huses x hx hid
      cases hspan
      exact ⟨note, y, member, symbol, rfl, htyped, hw⟩
    next => cases hcharge
  | deliver | compare => cases hcharge
  | observe => exact huses.elim

/-- The operand of an empty slot has no symbol, or something is blocked on its symbol for the slot. -/
theorem delivery_of_vacant {slot : Nat} {y : Expr}
    (hcall : s.calls[call]? = some gathering)
    (hmem : .call gathering.call target arguments ∈ E) (hy : (target :: arguments)[slot]? = some y)
    (hslot : gathering.slots[slot]? = some none) :
    s.typeOf? y.id = none ∨ ∃ symbol, s.typeOf? y.id = some symbol ∧
      (symbol, y.span, .deliver call slot) ∈ s.blocked := by
  have hvacant : s.vacant call slot = 1 := by simp [vacant, hcall, hslot]
  have hslots := h.linear.slots call slot
  rw [hvacant, owed_nil, Nat.zero_add, held] at hslots
  have htyped : total (fun p => (Charge.toSlot call slot).node p.1) s.typed = 0 := by
    simp [Charge.toSlot, total_const]
  have hoperand : ∀ {x next}, s.Uses E x next → 0 < next.charge (.toSlot call slot) →
      next = .deliver call slot ∧ x = y := by
    intro x next huses hcharge
    cases next with
    | select => cases hcharge
    | deliver call' slot' =>
      simp only [WhenBound.charge, Charge.toSlot] at hcharge
      split at hcharge
      next heq =>
        obtain ⟨rfl, rfl⟩ := heq
        obtain ⟨gathering', target', arguments', hcall', hmem', hx⟩ := huses
        cases hcall.symm.trans hcall'
        obtain ⟨rfl, rfl⟩ := h.provenance.operands_eq hmem hmem'
        cases hy.symm.trans hx
        exact ⟨rfl, rfl⟩
      next => cases hcharge
    | compare => cases hcharge
    | observe => exact huses.elim
  by_cases hwaits : 0 < total (fun w => w.2.charge (.toSlot call slot)) s.waiting
  · obtain ⟨⟨node, next⟩, hw, hcharge⟩ := exists_pos_of_total_pos hwaits
    have hnone := h.vigilant.alert.untyped _ hw
    cases next with
    | resolve origin next =>
      obtain ⟨x, hx, rfl, -, huses⟩ := h.provenance.waiting _ hw
      obtain ⟨-, rfl⟩ := hoperand huses hcharge
      exact .inl hnone
    | copy | initialise => cases hcharge
    | observe => exact (h.provenance.waiting _ hw).elim
  · obtain ⟨⟨symbol, origin, next⟩, hw, hcharge⟩ := exists_pos_of_total_pos
      (show 0 < total (fun w => w.2.2.charge (.toSlot call slot)) s.blocked by omega)
    obtain ⟨x, hx, hsymbol, hspan, huses⟩ := h.provenance.blocked _ hw
    obtain ⟨rfl, rfl⟩ := hoperand huses hcharge
    cases hspan
    exact .inr ⟨symbol, hsymbol, hw⟩

/-- An inferred node without a symbol waits for an operand without one, or it is a selection that is
blocked on its target, or a call that has not gathered all of its types. -/
theorem pending (hx : x ∈ E) (hnone : s.typeOf? x.id = none) :
    (∃ y, x.sole? = some y ∧ s.typeOf? y.id = none) ∨
    (∃ note y member symbol, x = .selection note y member ∧ s.typeOf? y.id = some symbol ∧
      (symbol, y.span, .select note member) ∈ s.blocked) ∨
    ∃ (call : Nat) (gathering : Gathering) (target : Expr) (arguments : List Expr),
      s.calls[call]? = some gathering ∧ x = .call gathering.call target arguments ∧
      gathering.missing ≠ 0 := by
  have htally : 0 < s.tally x.id := by
    have hpos : 0 < Tree.count x.id E := List.countP_pos_iff.mpr ⟨x, hx, by simp⟩
    have hle := h.counted x.id
    omega
  have htyped : total (fun p => (Charge.toNode x.id).node p.1) s.typed = 0 := by
    by_contra hne
    obtain ⟨p, hp, hpos⟩ := exists_pos_of_total_pos (Nat.pos_of_ne_zero hne)
    simp only [Charge.toNode] at hpos
    split at hpos
    next hid =>
      have hlookup := List.lookup_eq_none_iff.mp hnone p hp
      simp [hid] at hlookup
    next => cases hpos
  rw [tally, held, htyped, Nat.zero_add] at htally
  by_cases hwaits : 0 < total (fun w => w.2.charge (.toNode x.id)) s.waiting
  · obtain ⟨w, hw, hcharge⟩ := exists_pos_of_total_pos hwaits
    exact .inl (h.untyped_of_waiting hx hw hcharge)
  · by_cases hblocks : 0 < total (fun w => w.2.2.charge (.toNode x.id)) s.blocked
    · obtain ⟨w, hw, hcharge⟩ := exists_pos_of_total_pos hblocks
      exact .inr (.inl (h.selection_of_blocked hx hw hcharge))
    · obtain ⟨gathering, hgathering, hcharge⟩ := exists_pos_of_total_pos
        (show 0 < total (callCharge x.id) s.calls.toList by omega)
      obtain ⟨call, hcall⟩ := List.getElem?_of_mem hgathering
      rw [Array.getElem?_toList] at hcall
      unfold callCharge at hcharge
      split at hcharge
      next => cases hcharge
      next hmissing =>
        simp only [Charge.toNode] at hcharge
        split at hcharge
        next hid =>
          obtain ⟨target, arguments, hmem, -, -, -⟩ := h.provenance.calls hcall
          cases h.provenance.distinct _ hmem x hx hid
          exact .inr (.inr ⟨call, gathering, target, arguments, hcall, rfl, hmissing⟩)
        next => cases hcharge

theorem exists_vacant (hcall : s.calls[call]? = some gathering)
    (hmem : .call gathering.call target arguments ∈ E)
    (hmissing : gathering.missing ≠ 0) :
    ∃ (slot : Nat) (y : Expr), (target :: arguments)[slot]? = some y ∧
      gathering.slots[slot]? = some none := by
  rw [h.linear.missing hcall] at hmissing
  obtain ⟨a, ha, hempty⟩ := List.countP_pos_iff.mp (Nat.pos_of_ne_zero hmissing)
  rw [Option.isNone_iff_eq_none] at hempty
  subst hempty
  obtain ⟨slot, hslot⟩ := List.getElem?_of_mem ha
  obtain ⟨target', arguments', hmem', -, hlength, -⟩ := h.provenance.calls hcall
  obtain ⟨rfl, rfl⟩ := h.provenance.operands_eq hmem hmem'
  have hlt : slot < (target' :: arguments').length := by
    rw [List.length_cons, ← hlength]
    exact (List.getElem?_eq_some_iff.mp hslot).1
  exact ⟨slot, _, List.getElem?_eq_getElem hlt, hslot⟩

/-- An inferred node without a symbol waits for one of its operands. -/
theorem stuck (hx : x ∈ E) (hnone : s.typeOf? x.id = none) : s.Stuck x := by
  rcases h.pending hx hnone with ⟨y, hy, hy'⟩ | ⟨note, y, member, symbol, rfl, htyped, hblocked⟩ |
    ⟨call, gathering, target, arguments, hcall, rfl, hmissing⟩
  · exact ⟨y, Tree.mem_operands_of_sole? hy, .inl hy'⟩
  · exact ⟨y, List.mem_cons_self, .inr ⟨rfl, symbol, _, htyped, hblocked⟩⟩
  · obtain ⟨slot, y, hy, hslot⟩ := h.exists_vacant hcall hx hmissing
    refine ⟨y, List.mem_of_getElem? hy, ?_⟩
    rcases h.delivery_of_vacant hcall hx hy hslot with hy' | ⟨symbol, htyped, hblocked⟩
    · exact .inl hy'
    · exact .inr ⟨rfl, symbol, _, htyped, hblocked⟩

/-- Below an inferred node without a symbol there is one with an unbound symbol, which something is
blocked on. -/
theorem unresolved (x : Expr) (hx : x ∈ E) (hnone : s.typeOf? x.id = none) :
    ∃ y ∈ x.operands, ∃ z ∈ y.reached, ∃ symbol next, s.typeOf? z.id = some symbol ∧
      s.graph.bound? symbol = none ∧ (symbol, z.span, next) ∈ s.blocked := by
  induction x using Tree.operands_induction with
  | h x ih =>
    obtain ⟨y, hy, huntyped | ⟨-, symbol, next, htyped, hblocked⟩⟩ := h.stuck hx hnone
    · obtain ⟨y', hy', z, hz, hrest⟩ := ih y hy (h.provenance.operands x hx y hy) huntyped
      exact ⟨y, hy, z, Tree.mem_reached_iff.mpr (.inr ⟨y', hy', hz⟩), hrest⟩
    · exact ⟨y, hy, y, Tree.mem_reached_self y, symbol, next, htyped,
        h.vigilant.unbound _ hblocked, hblocked⟩

end Followed
end State
end Inference
end Binder
