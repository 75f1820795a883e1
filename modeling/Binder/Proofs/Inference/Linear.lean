import Binder.Proofs.Inference.Charge

/-! Every node is typed at most once. A run keeps two accounts: to each slot of a call that is still
empty exactly one type is owed, and to each node at most one symbol, counting the one it may have got
already. A run whose first tasks are in order never types a node again. -/
namespace Binder.Inference

open Binder.Tree (Expr Mark NodeId)

def Charge.toSlot (call slot : Nat) : Charge where
  node _ := 0
  slot call' slot' := if call' = call ∧ slot' = slot then 1 else 0

def Charge.toNode (node : NodeId) : Charge where
  node node' := if node' = node then 1 else 0
  slot _ _ := 0

theorem inferCharge_eq_zero {m : Charge} (h : ∀ node, m.node node = 0) (e : Expr) :
    inferCharge m e = 0 := by
  induction e using Tree.operands_induction with
  | h e ih => rw [inferCharge_eq, h, total_congr ih, total_const, Nat.zero_mul]

theorem slotsCharge_toSlot (call call' slot first count : Nat) :
    slotsCharge (.toSlot call slot) call' first count =
      if call' = call ∧ first ≤ slot ∧ slot < first + count then 1 else 0 := by
  induction count generalizing first with
  | zero =>
    simp only [slotsCharge]
    rw [if_neg]
    omega
  | succ count ih =>
    simp only [slotsCharge, Charge.toSlot] at ih ⊢
    rw [ih]
    split_ifs <;> omega

theorem slotsCharge_toNode (node : NodeId) (call first count : Nat) :
    slotsCharge (.toNode node) call first count = 0 := by
  induction count generalizing first with
  | zero => rfl
  | succ count ih =>
    simp only [slotsCharge, ih]
    rfl

def Gathering.fill (call : Gathering) (slot : Nat) (t : TypeId) : Gathering :=
  { call with slots := call.slots.set slot (some t), missing := call.missing - 1 }

namespace State

variable {s s' : State} {m : Charge}

theorem deliver_eq {call : Nat} {gathering : Gathering} (h : s.calls[call]? = some gathering)
    (slot : Nat) (t : TypeId) :
    s.deliver call slot t =
      if (gathering.fill slot t).missing = 0 then
        { s with calls := s.calls.setIfInBounds call (gathering.fill slot t) }.resolve
          (gathering.fill slot t) ((gathering.fill slot t).slots.filterMap id)
      else ([], { s with calls := s.calls.setIfInBounds call (gathering.fill slot t) }) := by
  simp only [deliver, h]
  rfl

/-- What a delivery leaves owed: the symbol of the call, once nothing is missing. -/
theorem deliver_passes {call : Nat} {gathering : Gathering} (h : s.calls[call]? = some gathering)
    (slot : Nat) (t : TypeId) :
    owed m (s.deliver call slot t).1 + (s.deliver call slot t).2.held m =
        (if gathering.missing - 1 = 0 then m.node gathering.call.id else 0) + s.held m ∧
      (s.deliver call slot t).2.calls =
        s.calls.setIfInBounds call (gathering.fill slot t) := by
  rw [deliver_eq h, resolve_eq_pronounce]
  by_cases hzero : gathering.missing - 1 = 0
  · have hpass := passes_pronounce (m := m)
      { s with calls := s.calls.setIfInBounds call (gathering.fill slot t) } gathering.call
      (.ofCall s.graph gathering.names ((gathering.fill slot t).slots.filterMap id))
    rw [if_pos (show (gathering.fill slot t).missing = 0 from hzero), if_pos hzero]
    exact ⟨hpass.owed, hpass.calls⟩
  · rw [if_neg (show ¬ (gathering.fill slot t).missing = 0 from hzero), if_neg hzero]
    exact ⟨rfl, rfl⟩

/-- One for a slot that exists and is empty. -/
def vacant (s : State) (call slot : Nat) : Nat :=
  if (s.calls[call]?.bind fun gathering => gathering.slots[slot]?) = some none then 1 else 0

/-- To every empty slot one type is owed, and every call knows how many of its slots are empty. -/
structure Delivering (s : State) (ts : List Task) : Prop where
  slots : ∀ call slot, owed (.toSlot call slot) ts + s.held (.toSlot call slot) =
    s.vacant call slot
  missing : ∀ {call : Nat} {gathering : Gathering}, s.calls[call]? = some gathering →
    gathering.missing = gathering.slots.countP Option.isNone

theorem vacant_push (s' : State) (gathering : Gathering) (call slot : Nat)
    (h : s'.calls = s.calls.push gathering) :
    s'.vacant call slot =
      if call = s.calls.size then if gathering.slots[slot]? = some none then 1 else 0
      else s.vacant call slot := by
  simp only [vacant, h, Array.getElem?_push]
  split_ifs <;> simp_all

theorem vacant_size (s : State) (slot : Nat) : s.vacant s.calls.size slot = 0 := by
  simp [vacant]

theorem vacant_eq_one {call slot : Nat} (h : s.vacant call slot = 1) :
    ∃ gathering, s.calls[call]? = some gathering ∧ gathering.slots[slot]? = some none := by
  unfold vacant at h
  split at h
  next hslot => exact Option.bind_eq_some_iff.mp hslot
  next => cases h

theorem vacant_fill {call slot : Nat} {gathering : Gathering} {t : TypeId}
    (hcall : s.calls[call]? = some gathering) (hslot : gathering.slots[slot]? = some none)
    (h : s'.calls = s.calls.setIfInBounds call (gathering.fill slot t)) (call' slot' : Nat) :
    s'.vacant call' slot' + (if call = call' ∧ slot = slot' then 1 else 0) =
      s.vacant call' slot' := by
  obtain ⟨hin, hget⟩ := Array.getElem?_eq_some_iff.mp hcall
  obtain ⟨hlt, hnone⟩ := List.getElem?_eq_some_iff.mp hslot
  by_cases hc : call = call'
  · subst hc
    by_cases hs : slot = slot'
    · subst hs
      simp [vacant, h, hin, hget, hnone, Gathering.fill, hlt]
    · simp [vacant, h, hin, hget, Gathering.fill, hs]
  · simp [vacant, h, hc]

theorem countP_set_some {slots : List (Option TypeId)} {slot : Nat} (t : TypeId)
    (h : slots[slot]? = some none) :
    (slots.set slot (some t)).countP Option.isNone + 1 = slots.countP Option.isNone := by
  induction slots generalizing slot with
  | nil => simp at h
  | cons a rest ih =>
    cases slot with
    | zero =>
      simp only [List.getElem?_cons_zero, Option.some.injEq] at h
      simp [h]
    | succ slot =>
      have hrest := ih (by simpa using h)
      simp only [List.set_cons_succ, List.countP_cons]
      omega

theorem Delivering.slot_of_deliver {call slot : Nat} {t : TypeId} {rest : List Task}
    (h : s.Delivering (.bound (.deliver call slot) t :: rest)) :
    ∃ gathering, s.calls[call]? = some gathering ∧ gathering.slots[slot]? = some none := by
  apply vacant_eq_one
  have hslots := h.slots call slot
  have hle : s.vacant call slot ≤ 1 := by
    unfold vacant
    split <;> omega
  simp only [owed_cons, Task.charge, WhenBound.charge, Charge.toSlot, and_self, ↓reduceIte]
    at hslots
  omega

theorem Delivering.infer_call {node : Mark} {target : Expr} {arguments : List Expr}
    {rest : List Task} (h : s.Delivering (.infer (.call node target arguments) :: rest)) :
    (s.infer (.call node target arguments)).2.Delivering
      ((s.infer (.call node target arguments)).1 ++ rest) where
  slots := by
    intro call slot
    have hslots := h.slots call slot
    obtain ⟨howed, hcalls⟩ :=
      State.infer_call (m := .toSlot call slot) (s := s) node target arguments
    rw [slotsCharge_toSlot] at howed
    have hempty : (Gathering.start node arguments).slots[slot]? = some none ↔
        slot < arguments.length + 1 := by
      simp [Gathering.start, List.getElem?_replicate]
    rw [vacant_push _ _ call slot hcalls]
    simp only [owed_append, owed_cons, Task.charge] at hslots ⊢
    have hnode : (Charge.toSlot call slot).node node.id = 0 := rfl
    by_cases hc : call = s.calls.size
    · subst hc
      rw [vacant_size] at hslots
      simp only [hempty, ↓reduceIte]
      simp only [Nat.zero_add, true_and, Nat.zero_le] at howed
      split_ifs at howed ⊢ <;> omega
    · rw [if_neg (fun hs => hc hs.1.symm)] at howed
      rw [if_neg hc]
      omega
  missing := by
    intro call gathering hcall
    obtain ⟨-, hcalls⟩ := State.infer_call (m := .toSlot 0 0) (s := s) node target arguments
    rw [hcalls, Array.getElem?_push] at hcall
    split at hcall
    · cases hcall
      simp [Gathering.start, List.countP_replicate]
    · exact h.missing hcall

theorem Delivering.deliver {call slot : Nat} {t : TypeId} {rest : List Task}
    (h : s.Delivering (.bound (.deliver call slot) t :: rest)) :
    (s.deliver call slot t).2.Delivering ((s.deliver call slot t).1 ++ rest) := by
  obtain ⟨gathering, hcall, hslot⟩ := h.slot_of_deliver
  refine ⟨?_, ?_⟩
  · intro call' slot'
    have hslots := h.slots call' slot'
    obtain ⟨howed, hcalls⟩ := deliver_passes (m := .toSlot call' slot') hcall slot t
    have hvacant := vacant_fill hcall hslot hcalls call' slot'
    simp only [owed_append, owed_cons, Task.charge, WhenBound.charge, Charge.toSlot] at hslots howed ⊢
    split_ifs at * <;> omega
  · intro call' gathering' hcall'
    obtain ⟨-, hcalls⟩ := deliver_passes (m := .toSlot 0 0) hcall slot t
    rw [hcalls, Array.getElem?_setIfInBounds] at hcall'
    split at hcall'
    · have hcount := countP_set_some t hslot
      have hmissing := h.missing hcall
      split at hcall'
      · cases hcall'
        simp only [Gathering.fill]
        omega
      · cases hcall'
    · exact h.missing hcall'

theorem Delivering.step {t : Task} {rest new : List Task} (h : s.Delivering (t :: rest))
    (hs : s.step t = .ok (new, s')) : s'.Delivering (new ++ rest) := by
  by_cases ht : OutsideCalls t
  · refine ⟨?_, ?_⟩
    · intro call slot
      have hpass := passes_step (m := .toSlot call slot) ht hs
      have hslots := h.slots call slot
      have howed := hpass.owed
      simp only [owed_append, owed_cons, vacant, hpass.calls] at hslots howed ⊢
      omega
    · intro call gathering hcall
      rw [(passes_step (m := .toSlot 0 0) ht hs).calls] at hcall
      exact h.missing hcall
  · unfold OutsideCalls at ht
    split at ht
    · obtain ⟨rfl, rfl⟩ := eq_of_ok hs
      exact h.infer_call
    · obtain ⟨rfl, rfl⟩ := eq_of_ok hs
      exact h.deliver
    · exact absurd trivial ht

/-- What an unresolved call owes to its own node. -/
def callCharge (node : NodeId) (gathering : Gathering) : Nat :=
  if gathering.missing = 0 then 0 else (Charge.toNode node).node gathering.call.id

/-- How many symbols a node has got or is owed by the state. -/
def tally (node : NodeId) (s : State) : Nat :=
  s.held (.toNode node) + total (callCharge node) s.calls.toList

theorem total_set {α : Type} (f : α → Nat) {l : List α} {i : Nat} {a : α} (b : α)
    (h : l[i]? = some a) : total f (l.set i b) + f a = total f l + f b := by
  induction l generalizing i with
  | nil => simp at h
  | cons x rest ih =>
    cases i with
    | zero =>
      simp only [List.getElem?_cons_zero, Option.some.injEq] at h
      simp only [List.set_cons_zero, total_cons, h]
      omega
    | succ i =>
      have hrest := ih (by simpa using h)
      simp only [List.set_cons_succ, total_cons]
      omega

theorem tally_infer_call (n : NodeId) (node : Mark) (target : Expr) (arguments : List Expr) :
    owed (.toNode n) (s.infer (.call node target arguments)).1 +
        (s.infer (.call node target arguments)).2.tally n =
      inferCharge (.toNode n) (.call node target arguments) + s.tally n := by
  obtain ⟨howed, hcalls⟩ := State.infer_call (m := .toNode n) (s := s) node target arguments
  have hcharge : callCharge n (.start node arguments) = (Charge.toNode n).node node.id := by
    simp [callCharge, Gathering.start]
  rw [slotsCharge_toNode] at howed
  simp only [tally, hcalls, Array.toList_push, total_append, total_cons, total_nil, hcharge]
  omega

theorem tally_deliver (n : NodeId) {call slot : Nat} {t : TypeId} {rest : List Task}
    (h : s.Delivering (.bound (.deliver call slot) t :: rest)) :
    owed (.toNode n) (s.deliver call slot t).1 + (s.deliver call slot t).2.tally n = s.tally n := by
  obtain ⟨gathering, hcall, hslot⟩ := h.slot_of_deliver
  obtain ⟨howed, hcalls⟩ := deliver_passes (m := .toNode n) hcall slot t
  have hmissing := h.missing hcall
  have hcount := countP_set_some t hslot
  have hset := total_set (callCharge n) (gathering.fill slot t)
    (show s.calls.toList[call]? = some gathering by simpa using hcall)
  have hcharge : callCharge n gathering = (Charge.toNode n).node gathering.call.id := by
    rw [callCharge, if_neg]
    omega
  have hfill : callCharge n (gathering.fill slot t) =
      if gathering.missing - 1 = 0 then 0 else (Charge.toNode n).node gathering.call.id := rfl
  rw [hcharge, hfill] at hset
  simp only [tally, hcalls, Array.toList_setIfInBounds]
  split_ifs at howed hset <;> omega

theorem tally_step (n : NodeId) {t : Task} {rest new : List Task} (h : s.Delivering (t :: rest))
    (hs : s.step t = .ok (new, s')) :
    owed (.toNode n) new + s'.tally n = t.charge (.toNode n) + s.tally n := by
  by_cases ht : OutsideCalls t
  · have hpass := passes_step (m := .toNode n) ht hs
    have howed := hpass.owed
    simp only [tally, hpass.calls]
    omega
  · unfold OutsideCalls at ht
    split at ht
    · obtain ⟨rfl, rfl⟩ := eq_of_ok hs
      exact tally_infer_call ..
    · obtain ⟨rfl, rfl⟩ := eq_of_ok hs
      exact (tally_deliver n h).trans (Nat.zero_add _).symm
    · exact absurd trivial ht

/-- No node is owed a second symbol. -/
structure Linear (s : State) (ts : List Task) : Prop extends s.Delivering ts where
  once : ∀ node, owed (.toNode node) ts + s.tally node ≤ 1

theorem Linear.step {t : Task} {rest new : List Task} (h : s.Linear (t :: rest))
    (hs : s.step t = .ok (new, s')) : s'.Linear (new ++ rest) where
  toDelivering := h.toDelivering.step hs
  once := by
    intro node
    have honce := h.once node
    have htally := tally_step node h.toDelivering hs
    simp only [owed_append, owed_cons] at honce ⊢
    omega

theorem one_le_tally {node : NodeId} (h : (s.typeOf? node).isSome) : 1 ≤ s.tally node := by
  obtain ⟨symbol, hsome⟩ := Option.isSome_iff_exists.mp h
  have hmem : ∃ p ∈ s.typed, p.1 = node := by
    unfold typeOf? at hsome
    rw [List.lookup_eq_some_iff] at hsome
    obtain ⟨l₁, l₂, heq, -⟩ := hsome
    exact ⟨(node, symbol), by simp [heq], rfl⟩
  have htotal : 1 ≤ total (fun p => (Charge.toNode node).node p.1) s.typed := by
    obtain ⟨p, hp, hnode⟩ := hmem
    obtain ⟨l₁, l₂, heq⟩ := List.append_of_mem hp
    have hone : (Charge.toNode node).node p.1 = 1 := by simp [Charge.toNode, hnode]
    simp only [heq, total_append, total_cons, hone]
    omega
  simp only [tally, held]
  omega

/-- A task that types a node finds it untyped. -/
theorem Linear.untyped {node : NodeId} {symbol : SymbolId} {rest : List Task}
    (h : s.Linear (.record node symbol :: rest)) : s.typeOf? node = none := by
  by_contra hne
  have hone : 1 ≤ s.tally node := one_le_tally (Option.isSome_iff_ne_none.mpr hne)
  have honce := h.once node
  simp only [owed_cons, Task.charge, Charge.toNode, ↓reduceIte] at honce
  omega

end State
end Binder.Inference
