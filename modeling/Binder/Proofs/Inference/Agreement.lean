import Binder.Proofs.Inference.Deferral

/-! The outcome of inferring an expression. Which nodes have which symbols in the end follows from the
graph and the scope, and so does everything that is reported. -/
namespace Binder

open Binder.Tree (Expr Mark NodeId)

/-- The operands whose types a node waits for, in the order of its slots. -/
def Tree.Node.awaited : Expr → List Expr
  | .selection _ target _ => [target]
  | .call _ target arguments => target :: arguments
  | _ => []

namespace Inference

theorem two_le_total {α : Type} {f : α → Nat} {l : List α} {i j : Nat} {a b : α} (hij : i < j)
    (ha : l[i]? = some a) (hb : l[j]? = some b) (hfa : 0 < f a) (hfb : 0 < f b) :
    2 ≤ total f l := by
  induction l generalizing i j with
  | nil => simp at ha
  | cons c l ih =>
    obtain ⟨j, rfl⟩ := Nat.exists_eq_add_of_lt (Nat.zero_lt_of_lt hij)
    rw [total_cons]
    cases i with
    | zero =>
      cases ha
      have hmem : b ∈ l := List.mem_of_getElem? (by simpa using hb)
      obtain ⟨l₁, l₂, rfl⟩ := List.append_of_mem hmem
      rw [total_append, total_cons]
      omega
    | succ i =>
      have hrest := ih (i := i) (j := j) (by omega) (by simpa using ha) (by simpa using hb)
      omega

namespace State

variable {E : List Expr} {s s₁ s₂ : State} {x y : Expr} {R R₁ R₂ : List Ruling} {n : NodeId}
  {symbol : SymbolId}

namespace Solo

theorem typeOf?_eq (h : s.Solo E []) (hx : x ∈ E) :
    s.typeOf? x.id = (s.verdict? x).map Verdict.symbol := by
  obtain ⟨R, hR⟩ := h.ruled
  exact h.followed.typeOf?_eq hR hx

theorem typeOf?_eq_none (h : s.Solo E []) (hn : ∀ x ∈ E, x.id ≠ n) : s.typeOf? n = none := by
  by_contra hne
  obtain ⟨symbol, htyped⟩ := Option.ne_none_iff_exists'.mp hne
  obtain ⟨R, hR⟩ := h.ruled
  obtain ⟨r, hr, hid, -⟩ := hR.exists_of_typeOf? htyped
  exact hn _ (hR.verdicts r hr).1 hid

variable (h₁ : s₁.Solo E []) (h₂ : s₂.Solo E []) (hgraph : s₁.graph = s₂.graph)
  (hscope : s₁.scope = s₂.scope)

include h₁ h₂ hgraph hscope

theorem agree (x : Expr) (hx : x ∈ E) : s₁.typeOf? x.id = s₂.typeOf? x.id := by
  induction x using Tree.operands_induction with
  | h x ih =>
    have hoperands : ∀ y ∈ x.operands, s₁.typeOf? y.id = s₂.typeOf? y.id :=
      fun y hy => ih y hy (h₁.provenance.operands x hx y hy)
    rw [h₁.typeOf?_eq hx, h₂.typeOf?_eq hx, verdict?_congr hgraph hscope hoperands]

theorem typeOf?_agree (n : NodeId) : s₁.typeOf? n = s₂.typeOf? n := by
  by_cases hn : ∃ x ∈ E, x.id = n
  · obtain ⟨x, hx, rfl⟩ := hn
    exact agree h₁ h₂ hgraph hscope x hx
  · have hnone : ∀ x ∈ E, x.id ≠ n := fun x hx hid => hn ⟨x, hx, hid⟩
    rw [h₁.typeOf?_eq_none hnone, h₂.typeOf?_eq_none hnone]

theorem verdict?_agree (x : Expr) : s₁.verdict? x = s₂.verdict? x :=
  verdict?_congr hgraph hscope fun y _ => typeOf?_agree h₁ h₂ hgraph hscope y.id

end Solo

theorem total_toNode (n : NodeId) (typed : List (NodeId × SymbolId)) :
    total (fun p => (Charge.toNode n).node p.1) typed = (typed.map Prod.fst).count n := by
  induction typed with
  | nil => rfl
  | cons p typed ih =>
    rw [total_cons, ih, List.map_cons, List.count_cons, Nat.add_comm]
    simp [Charge.toNode]

theorem Ruled.nodup (h : s.Ruled E [] R) (hlinear : s.Linear []) : R.Nodup := by
  have hkeys : (s.typed.map Prod.fst).Nodup := by
    rw [List.nodup_iff_count_le_one]
    intro n
    have honce := hlinear.once n
    have htotal := total_toNode n s.typed
    simp only [tally, held] at honce
    omega
  have hids : (R.map fun r => r.node.id).Nodup := by
    have hperm := h.entries.map Prod.fst
    rw [records_nil, List.append_nil, List.map_map] at hperm
    exact hperm.nodup_iff.mp hkeys
  exact List.Nodup.of_map _ hids

theorem Solo.mem_rulings (h : s.Solo E []) (hR : s.Ruled E [] R) (r : Ruling) :
    r ∈ R ↔ r.node ∈ E ∧ s.verdict? r.node = some r.verdict := by
  constructor
  · exact hR.verdicts r
  · rintro ⟨hmem, hverdict⟩
    have htyped := h.typeOf?_eq hmem
    rw [hverdict, Option.map_some] at htyped
    obtain ⟨r', hr', hid, -⟩ := hR.exists_of_typeOf? htyped
    obtain ⟨hmem', hverdict'⟩ := hR.verdicts r' hr'
    have hnode := h.provenance.distinct _ hmem' _ hmem hid
    rw [hnode, hverdict] at hverdict'
    have heq : r' = r := by
      cases r
      cases r'
      simp_all
    exact heq ▸ hr'

/-- The node and the slot of it that a continuation waits for. -/
def place? (s : State) : WhenBound → Option (NodeId × Nat)
  | .select node _ => some (node.id, 0)
  | .deliver call slot => (s.calls[call]?).map fun gathering => (gathering.call.id, slot)
  | .compare _ _ | .observe _ _ => none

/-- Some slot of a node waits for an operand whose symbol is unbound. -/
def Awaits (E : List Expr) (s : State) (x : Expr) (i : Nat) : Prop :=
  x ∈ E ∧ ∃ y symbol, x.awaited[i]? = some y ∧ s.typeOf? y.id = some symbol ∧
    s.graph.bound? symbol = none

namespace Solo

variable {w : SymbolId × Span × WhenBound}

theorem place?_of_blocked (h : s.Solo E []) (hw : w ∈ s.blocked) :
    ∃ x ∈ E, ∃ i y, s.place? w.2.2 = some (x.id, i) ∧ x.awaited[i]? = some y ∧
      s.typeOf? y.id = some w.1 ∧ y.span = w.2.1 := by
  have hbare := h.bare.blocked w hw
  obtain ⟨y, hy, htyped, hspan, huses⟩ := h.provenance.blocked w hw
  obtain ⟨symbol, origin, next⟩ := w
  cases next with
  | select node member => exact ⟨_, huses, 0, y, rfl, rfl, htyped, hspan⟩
  | deliver call slot =>
    obtain ⟨gathering, target, arguments, hcall, hmem, hslot⟩ := huses
    refine ⟨_, hmem, slot, y, ?_, hslot, htyped, hspan⟩
    rw [place?, hcall]
    rfl
  | compare | observe => cases hbare

theorem exists_blocked (h : s.Solo E []) {i : Nat} (hawaits : s.Awaits E x i) :
    ∃ w ∈ s.blocked, s.place? w.2.2 = some (x.id, i) := by
  obtain ⟨hx, y, symbol, hy, htyped, hunbound⟩ := hawaits
  have hresolved : s.resolved? y.id = none := by simp [resolved?, htyped, hunbound]
  cases x with
  | selection note target member =>
    have hi : i = 0 ∧ target = y := by
      cases i with
      | zero => simpa [Tree.Node.awaited] using hy
      | succ i => simp [Tree.Node.awaited] at hy
    obtain ⟨rfl, rfl⟩ := hi
    have hnone : s.typeOf? (Tree.Node.selection note target member).id = none := by
      rw [h.typeOf?_eq hx, verdict?, hresolved]
      rfl
    rcases h.followed.pending hx hnone with ⟨z, hz, huntyped⟩ | ⟨_, _, _, _, heq, -, hblocked⟩ |
      ⟨_, _, _, _, -, heq, -⟩
    · cases hz
      rw [htyped] at huntyped
      cases huntyped
    · cases heq
      exact ⟨_, hblocked, rfl⟩
    · cases heq
  | call note target arguments =>
    have hnone : s.typeOf? (Tree.Node.call note target arguments).id = none := by
      have hnot : ¬ ((target :: arguments).map fun e => s.resolved? e.id).all Option.isSome := by
        rw [List.all_map, List.all_eq_true]
        intro hall
        have hsome := hall y (List.mem_of_getElem? hy)
        simp [hresolved] at hsome
      rw [h.typeOf?_eq hx, verdict?, if_neg hnot, Option.map_none]
    rcases h.followed.pending hx hnone with ⟨z, hz, -⟩ | ⟨_, _, _, _, heq, -, -⟩ |
      ⟨call, gathering, target', arguments', hcall, heq, -⟩
    · cases hz
    · cases heq
    · cases heq
      obtain ⟨target', arguments', hmem, -, hlength, hslots⟩ := h.provenance.calls hcall
      obtain ⟨rfl, rfl⟩ := h.provenance.operands_eq hx hmem
      have hlt : i < gathering.slots.length := by
        rw [hlength]
        simpa [Tree.Node.awaited] using (List.getElem?_eq_some_iff.mp hy).1
      have hslot : gathering.slots[i]? = some none := by
        rw [List.getElem?_eq_getElem hlt]
        cases ht : gathering.slots[i] with
        | none => rfl
        | some t =>
          have hfilled := hslots hy (by rw [List.getElem?_eq_getElem hlt, ht])
          rw [hresolved] at hfilled
          cases hfilled
      rcases h.followed.delivery_of_vacant hcall hx hy hslot with huntyped | ⟨_, -, hblocked⟩
      · rw [htyped] at huntyped
        cases huntyped
      · refine ⟨_, hblocked, ?_⟩
        simp only [place?, hcall, Option.map_some]
        rfl
  | literal | ident | namedArgument | sequence | definition | typeLiteral | arrayType | referenceType
  | extension => cases hy

theorem gathering_of_deliver (h : s.Solo E []) {call slot : Nat} {a : SymbolId} {origin : Span}
    (hw : (a, origin, .deliver call slot) ∈ s.blocked) :
    ∃ gathering, s.calls[call]? = some gathering ∧ gathering.missing ≠ 0 := by
  have hslots := h.linear.slots call slot
  obtain ⟨l₁, l₂, hl⟩ := List.append_of_mem hw
  have hcharge : 0 < s.held (.toSlot call slot) := by
    rw [held, hl, total_append, total_cons]
    simp only [WhenBound.charge, Charge.toSlot, and_self, ↓reduceIte]
    omega
  have hle : s.vacant call slot ≤ 1 := by
    unfold vacant
    split <;> omega
  have hvacant : s.vacant call slot = 1 := by
    rw [owed_nil] at hslots
    omega
  obtain ⟨gathering, hcall, hslot⟩ := vacant_eq_one hvacant
  refine ⟨gathering, hcall, ?_⟩
  rw [h.linear.missing hcall]
  have hpos : 0 < gathering.slots.countP Option.isNone :=
    List.countP_pos_iff.mpr ⟨none, List.mem_of_getElem? hslot, rfl⟩
  omega

theorem nodup_places (h : s.Solo E []) : (s.blocked.map fun w => s.place? w.2.2).Nodup := by
  rw [List.Nodup, List.pairwise_map, List.pairwise_iff_getElem]
  intro i j hi hj hij heq
  have hwi := List.getElem_mem hi
  have hwj := List.getElem_mem hj
  have hgi := List.getElem?_eq_getElem hi
  have hgj := List.getElem?_eq_getElem hj
  generalize s.blocked[i] = w at heq hwi hgi
  generalize s.blocked[j] = w' at heq hwj hgj
  have hbare := h.bare.blocked w hwi
  have hbare' := h.bare.blocked w' hwj
  obtain ⟨_, _, _, _, huses⟩ := h.provenance.blocked w hwi
  obtain ⟨_, _, _, _, huses'⟩ := h.provenance.blocked w' hwj
  obtain ⟨a, origin, next⟩ := w
  obtain ⟨a', origin', next'⟩ := w'
  cases next with
  | select node member =>
    cases next' with
    | select node' member' =>
      have hid : node.id = node'.id := (Prod.mk.inj (Option.some.inj heq)).1
      have htwo : 2 ≤ total (fun w => w.2.2.charge (.toNode node.id)) s.blocked :=
        two_le_total hij hgi hgj (by simp [WhenBound.charge, Charge.toNode])
          (by simp [WhenBound.charge, Charge.toNode, hid])
      have honce := h.linear.once node.id
      simp only [tally, held] at honce
      omega
    | deliver call' slot' =>
      obtain ⟨gathering, target, arguments, hcall, hmem, -⟩ := huses'
      simp only [place?, hcall, Option.map_some, Option.some.injEq, Prod.mk.injEq] at heq
      cases h.provenance.distinct _ huses _ hmem heq.1
    | compare | observe => cases hbare'
  | deliver call slot =>
    obtain ⟨gathering, target, arguments, hcall, hmem, -⟩ := huses
    cases next' with
    | select node' member' =>
      simp only [place?, hcall, Option.map_some, Option.some.injEq, Prod.mk.injEq] at heq
      cases h.provenance.distinct _ hmem _ huses' heq.1
    | deliver call' slot' =>
      obtain ⟨gathering', target', arguments', hcall', hmem', -⟩ := huses'
      simp only [place?, hcall, hcall', Option.map_some, Option.some.injEq, Prod.mk.injEq] at heq
      obtain ⟨hid, rfl⟩ := heq
      by_cases hsame : call = call'
      · subst hsame
        have htwo : 2 ≤ total (fun w => w.2.2.charge (.toSlot call slot)) s.blocked :=
          two_le_total hij hgi hgj (by simp [WhenBound.charge, Charge.toSlot])
            (by simp [WhenBound.charge, Charge.toSlot])
        have hslots := h.linear.slots call slot
        have hle : s.vacant call slot ≤ 1 := by
          unfold vacant
          split <;> omega
        simp only [held, owed_nil] at hslots
        omega
      · obtain ⟨_, hcall₁, hmissing⟩ := h.gathering_of_deliver hwi
        obtain ⟨_, hcall₂, hmissing'⟩ := h.gathering_of_deliver hwj
        cases hcall.symm.trans hcall₁
        cases hcall'.symm.trans hcall₂
        have honce := h.linear.once gathering.call.id
        have hcharge : 0 < callCharge gathering.call.id gathering := by
          simp [callCharge, hmissing, Charge.toNode]
        have hcharge' : 0 < callCharge gathering.call.id gathering' := by
          simp [callCharge, hmissing', Charge.toNode, hid]
        have htwo : 2 ≤ total (callCharge gathering.call.id) s.calls.toList := by
          rw [← Array.getElem?_toList] at hcall hcall'
          rcases Nat.lt_or_gt_of_ne hsame with hlt | hgt
          · exact two_le_total hlt hcall hcall' hcharge hcharge'
          · exact two_le_total hgt hcall' hcall hcharge' hcharge
        simp only [tally] at honce
        omega
    | compare | observe => cases hbare'
  | compare | observe => cases hbare

theorem mem_places (h : s.Solo E []) (k : Option (NodeId × Nat)) :
    k ∈ s.blocked.map (fun w => s.place? w.2.2) ↔
      ∃ x i, s.Awaits E x i ∧ k = some (x.id, i) := by
  constructor
  · intro hk
    obtain ⟨w, hw, rfl⟩ := List.mem_map.mp hk
    obtain ⟨x, hx, i, y, hplace, hy, htyped, -⟩ := h.place?_of_blocked hw
    exact ⟨x, i, ⟨hx, y, w.1, hy, htyped, h.vigilant.unbound w hw⟩, hplace⟩
  · rintro ⟨x, i, hawaits, rfl⟩
    obtain ⟨w, hw, hplace⟩ := h.exists_blocked hawaits
    exact List.mem_map.mpr ⟨w, hw, hplace⟩

end Solo

def spanAt (E : List Expr) (k : Option (NodeId × Nat)) : Span :=
  ((k.bind fun p => (E.find? fun x => x.id = p.1).bind fun x => x.awaited[p.2]?).map
    Tree.Node.span).getD .zero

theorem Solo.spans_eq (h : s.Solo E []) : s.blocked.map (fun w => w.2.1) =
    (s.blocked.map fun w => s.place? w.2.2).map (spanAt E) := by
  rw [List.map_map]
  apply List.map_congr_left
  intro w hw
  obtain ⟨x, hx, i, y, hplace, hy, -, hspan⟩ := h.place?_of_blocked hw
  have hfind : E.find? (fun z => z.id = x.id) = some x := by
    cases hf : E.find? (fun z => z.id = x.id) with
    | none =>
      have hnone := List.find?_eq_none.mp hf x hx
      simp at hnone
    | some z =>
      have hid : z.id = x.id := by simpa using List.find?_some hf
      rw [h.provenance.distinct _ (List.mem_of_find?_eq_some hf) _ hx hid]
  simp [spanAt, hplace, hfind, hy, hspan]

namespace Solo

variable (h₁ : s₁.Solo E []) (h₂ : s₂.Solo E []) (hgraph : s₁.graph = s₂.graph)
  (hscope : s₁.scope = s₂.scope)

include h₁ h₂ hgraph hscope

/-- What is reported in the end follows from graph and scope, but for its order. -/
theorem finish_perm :
    (Inference.finish s₁).diagnostics.Perm (Inference.finish s₂).diagnostics := by
  obtain ⟨R₁, hR₁⟩ := h₁.ruled
  obtain ⟨R₂, hR₂⟩ := h₂.ruled
  have hrulings : R₁.Perm R₂ := by
    rw [List.perm_ext_iff_of_nodup (hR₁.nodup h₁.linear) (hR₂.nodup h₂.linear)]
    intro r
    rw [h₁.mem_rulings hR₁, h₂.mem_rulings hR₂, verdict?_agree h₁ h₂ hgraph hscope]
  have hplaces : (s₁.blocked.map fun w => s₁.place? w.2.2).Perm
      (s₂.blocked.map fun w => s₂.place? w.2.2) := by
    rw [List.perm_ext_iff_of_nodup h₁.nodup_places h₂.nodup_places]
    intro k
    simp only [h₁.mem_places, h₂.mem_places, Awaits, hgraph, typeOf?_agree h₁ h₂ hgraph hscope]
  have hspans : (s₁.blocked.map fun w => w.2.1).Perm (s₂.blocked.map fun w => w.2.1) := by
    rw [h₁.spans_eq, h₂.spans_eq]
    exact hplaces.map _
  simp only [Inference.finish, hR₁.reports, hR₂.reports]
  apply List.Perm.append
  · exact hrulings.flatMap_right _
  · apply List.Perm.map
    exact (List.mergeSort_perm _ _).trans (hspans.trans (List.mergeSort_perm _ _).symm)

end Solo
end State
end Inference
end Binder
