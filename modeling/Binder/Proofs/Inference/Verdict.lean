import Binder.Proofs.Inference.Moves
import Binder.Proofs.Inference.Overload
import Binder.Proofs.Tree.Numbering

/-! Verdicts. Once the types that it depends on are known, a node gets a symbol, and it may be
reported; which symbol and which fault depends on the graph, on the scope and on those types only. -/
namespace Binder.Inference

open Binder.Tree (Expr Mark NodeId)

/-- What becomes of a node: the symbol that it gets and the fault that is reported. -/
@[ext] structure Verdict where
  symbol : SymbolId
  fault : Option Fault
  deriving DecidableEq

/-- Verdicts about the same node, given with different graphs; `S` tells which symbols go together. -/
structure Verdicts (S : SymbolId → SymbolId → Prop) (v w : Verdict) : Prop where
  symbol : S v.symbol w.symbol
  fault : w.fault = v.fault

namespace Verdict

/-- A fault makes the node one of the error type. -/
def rejected (fault : Fault) : Verdict := ⟨Prelude.error, some fault⟩

def silent : Verdict := ⟨Prelude.error, none⟩

def ofName (scope : Scope Declaration) (name : String) : Verdict :=
  match scope.find? name with
  | some (.value member) => ⟨member.type, none⟩
  | some (.type _) => rejected .expectedValue
  | none => rejected .symbolNotFound

def ofMember (g : TypeGraph) (member : String) (t : TypeId) : Verdict :=
  if g.isErrorType t then silent
  else match (g.def? t).bind fun d => d.findMember? member with
    | some m => ⟨m.type, none⟩
    | none => rejected .memberNotFound

/-- The verdict about a call, given the names of the arguments and the types of the operands. -/
def ofCall (g : TypeGraph) (names : List (Option String)) : List TypeId → Verdict
  | [] => silent
  | target :: arguments =>
      if (target :: arguments).any g.isErrorType then silent
      else if (((g.def? target).map TypeDef.signatures).getD []).isEmpty then rejected .notCallable
      else match Overload.signature? g names target arguments with
        | some signature => ⟨signature.result, none⟩
        | none => rejected .noMatchingSignature

section

variable {A : TypeId → TypeId → Prop} {g h : TypeGraph} {ts us : List TypeId}

/-- Calls in two graphs come out alike where `A` tells which operands go together. -/
theorem ofCall_rel {S : SymbolId → SymbolId → Prop} (hsilent : S Prelude.error Prelude.error)
    (herror : ∀ t u, A t u → h.isErrorType u = g.isErrorType t)
    (hsignatures : ∀ t u, A t u → List.Forall₂ (fun s s' => S s.result s'.result ∧
        List.Forall₂ (Overload.Agree A g h) s.parameters s'.parameters)
      (((g.def? t).map TypeDef.signatures).getD []) (((h.def? u).map TypeDef.signatures).getD []))
    (hoperands : List.Forall₂ A ts us) (names : List (Option String)) :
    Verdicts S (ofCall g names ts) (ofCall h names us) := by
  have hany : us.any h.isErrorType = ts.any g.isErrorType := by
    induction hoperands with
    | nil => rfl
    | cons ha _ ih => rw [List.any_cons, List.any_cons, ih, herror _ _ ha]
  cases hoperands with
  | nil => exact ⟨hsilent, rfl⟩
  | @cons t u ts us ha hrest =>
    have hsignature := Overload.signature?_rel (hsignatures _ _ ha) hrest names
    have hempty := (hsignatures _ _ ha).length_eq
    simp only [ofCall, hany, List.isEmpty_iff_length_eq_zero, hempty]
    split
    · exact ⟨hsilent, rfl⟩
    split
    · exact ⟨hsilent, rfl⟩
    generalize Overload.signature? g names t ts = signature at hsignature
    generalize Overload.signature? h names u us = signature' at hsignature
    cases hsignature with
    | none => exact ⟨hsilent, rfl⟩
    | some hs => exact ⟨hs, rfl⟩

/-- A call of types that both graphs define alike comes out the same if their parameters take the
same of these types. -/
theorem ofCall_congr {P : TypeId → Prop} (hdef : ∀ {t}, P t → h.def? t = g.def? t)
    (hsame : ∀ {t d s q u}, g.def? t = some d → s ∈ d.signatures → q ∈ s.parameters → P u →
      h.sameType q.type (h.symbolOf u) = g.sameType q.type (g.symbolOf u))
    (hts : ∀ t ∈ ts, P t) (names : List (Option String)) : ofCall h names ts = ofCall g names ts := by
  have hoperands : List.Forall₂ (fun t u => t = u ∧ P t) ts ts :=
    List.forall₂_same.mpr fun t ht => ⟨rfl, hts t ht⟩
  have hverdict := ofCall_rel (S := Eq) (g := g) (h := h) rfl ?_ ?_ hoperands names
  · exact Verdict.ext hverdict.symbol.symm hverdict.fault
  · rintro t _ ⟨rfl, ht⟩
    rw [TypeGraph.isErrorType, hdef ht]
    rfl
  · rintro t _ ⟨rfl, ht⟩
    rw [hdef ht]
    cases hd : g.def? t with
    | none => exact .nil
    | some d =>
      refine List.forall₂_same.mpr fun s hs => ⟨rfl, List.forall₂_same.mpr fun q hq => ⟨rfl, rfl, ?_⟩⟩
      rintro u _ ⟨rfl, hu⟩
      exact hsame hd hs hq hu

end

end Verdict

namespace State

variable {s s' : State} {task : Task} {new : List Task} {e : Expr} {next : WhenBound} {t : TypeId}
  {l : List (Option TypeId)}

def voice (s : State) (span : Span) : Option Fault → State
  | none => s
  | some fault => s.report span fault

/-- What a verdict leads to. -/
def pronounce (s : State) (node : Mark) (v : Verdict) : List Task × State :=
  ([.record node.id v.symbol], s.voice node.span v.fault)

@[simp] theorem calls_pronounce (node : Mark) (v : Verdict) :
    (s.pronounce node v).2.calls = s.calls := by
  unfold pronounce voice
  split <;> rfl

theorem diagnostics_pronounce (node : Mark) (v : Verdict) :
    (s.pronounce node v).2.diagnostics =
      s.diagnostics ++ v.fault.toList.map fun fault => ⟨node.span, fault⟩ := by
  unfold pronounce voice
  split
  next hnone => simp [hnone]
  next fault hsome => simp [hsome, report]

theorem infer_ident (node : Mark) (name : String) :
    s.infer (.ident node name) = s.pronounce node (.ofName s.scope name) := by
  cases hfind : s.scope.find? name with
  | none =>
    simp only [infer, Verdict.ofName, hfind]
    rfl
  | some declaration =>
    cases declaration <;> (simp only [infer, Verdict.ofName, hfind]; rfl)

theorem select_eq_pronounce (node : Mark) (member : String) (t : TypeId) :
    s.select node member t = s.pronounce node (.ofMember s.graph member t) := by
  unfold select Verdict.ofMember
  by_cases herror : s.graph.isErrorType t
  · rw [if_pos herror, if_pos herror]
    rfl
  · rw [if_neg herror, if_neg herror]
    cases (s.graph.def? t).bind fun d => d.findMember? member <;> rfl

theorem resolve_eq_pronounce (call : Gathering) (types : List TypeId) :
    s.resolve call types = s.pronounce call.call (.ofCall s.graph call.names types) := by
  cases types with
  | nil => rfl
  | cons target arguments =>
    simp only [resolve, Verdict.ofCall]
    by_cases herror : (target :: arguments).any s.graph.isErrorType
    · rw [if_pos herror, if_pos herror]
      rfl
    · rw [if_neg herror, if_neg herror]
      by_cases hnone : (((s.graph.def? target).map TypeDef.signatures).getD []).isEmpty
      · rw [if_pos hnone, if_pos hnone]
        rfl
      · rw [if_neg hnone, if_neg hnone]
        cases hsignature : Overload.signature? s.graph call.names target arguments with
        | none =>
          rw [Overload.signature?] at hsignature
          rw [hsignature]
          rfl
        | some signature =>
          rw [Overload.signature?] at hsignature
          rw [hsignature]
          rfl

def resolved? (s : State) (node : NodeId) : Option TypeId := (s.typeOf? node).bind s.graph.bound?

/-- The verdict about a node, once the types that it depends on are known. -/
def verdict? (s : State) : Expr → Option Verdict
  | .literal _ value => some ⟨Prelude.literalType value, none⟩
  | .ident _ name => some (.ofName s.scope name)
  | .selection _ target member => (s.resolved? target.id).map (.ofMember s.graph member)
  | .call _ target arguments =>
      let slots := (target :: arguments).map fun e => s.resolved? e.id
      if slots.all Option.isSome then
        some (.ofCall s.graph (arguments.map Tree.Node.argumentName?) (slots.filterMap id))
      else none
  | .namedArgument _ _ value => (s.typeOf? value.id).map (⟨·, none⟩)
  | _ => some (.rejected .unknownNode)

theorem all_isSome (h : l.countP Option.isNone = 0) :
    l.all Option.isSome := by
  rw [List.all_eq_true]
  intro a ha
  have hnot := List.countP_eq_zero.mp h a ha
  exact Option.isSome_iff_ne_none.mpr (by simpa using hnot)

theorem map_some_filterMap_id (h : l.all Option.isSome) :
    (l.filterMap id).map some = l := by
  induction l with
  | nil => rfl
  | cons a l ih =>
    rw [List.all_cons, Bool.and_eq_true] at h
    obtain ⟨t, rfl⟩ := Option.isSome_iff_exists.mp h.1
    rw [List.filterMap_cons_some (f := id) (b := t) rfl, List.map_cons, ih h.2]

/-! What a node that is inferred and a type that comes in lead to. -/

theorem mem_gather {call slot : Nat} {es : List Expr} (h : task ∈ gather call slot es) :
    ∃ i x, es[i]? = some x ∧ (task = .infer x ∨
      task = .pend x.id (.resolve x.span (.deliver call (slot + i)))) := by
  induction es generalizing slot with
  | nil => cases h
  | cons e rest ih =>
    rw [gather, List.mem_cons, List.mem_cons] at h
    rcases h with rfl | rfl | h
    · exact ⟨0, e, rfl, .inl rfl⟩
    · exact ⟨0, e, rfl, .inr rfl⟩
    · obtain ⟨i, x, hx, htask⟩ := ih h
      rw [Nat.add_assoc, Nat.add_comm 1 i] at htask
      exact ⟨i + 1, x, hx, htask⟩

/-- The tasks that come of the inference of a node. -/
inductive Opens (s : State) : Expr → Task → Prop
  | verdict {e : Expr} {v : Verdict} : s.verdict? e = some v → Opens s e (.record e.id v.symbol)
  | operand {e x : Expr} : x ∈ e.operands → Opens s e (.infer x)
  | select (node : Mark) (target : Expr) (member : String) :
      Opens s (.selection node target member)
        (.pend target.id (.resolve target.span (.select node member)))
  | deliver {node : Mark} {target x : Expr} {arguments : List Expr} {i : Nat} :
      (target :: arguments)[i]? = some x →
      Opens s (.call node target arguments)
        (.pend x.id (.resolve x.span (.deliver s.calls.size i)))
  | copy (node : Mark) (name : String) (value : Expr) :
      Opens s (.namedArgument node name value) (.pend value.id (.copy node.id))

theorem opens_of_mem_infer (h : task ∈ (s.infer e).1) : s.Opens e task := by
  cases e with
  | literal node value =>
    cases List.mem_singleton.mp h
    exact .verdict (e := .literal node value) rfl
  | ident node name =>
    rw [infer_ident] at h
    cases List.mem_singleton.mp h
    exact .verdict (e := .ident node name) rfl
  | selection node target member =>
    rcases List.mem_cons.mp h with rfl | h
    · exact .operand List.mem_cons_self
    · cases List.mem_singleton.mp h
      exact .select ..
  | call =>
    obtain ⟨i, x, hx, rfl | rfl⟩ := mem_gather h
    · exact .operand (List.mem_of_getElem? hx)
    · rw [Nat.zero_add]
      exact .deliver hx
  | namedArgument node name value =>
    rcases List.mem_cons.mp h with rfl | h
    · exact .operand List.mem_cons_self
    · cases List.mem_singleton.mp h
      exact .copy ..
  | sequence | definition | typeLiteral | arrayType | referenceType | extension =>
    cases List.mem_singleton.mp h
    exact .verdict (v := .rejected .unknownNode) rfl

/-- A type that comes in lets a symbol be recorded, or an observer act. -/
theorem of_mem_onBound (h : task ∈ (s.onBound next t).1) :
    (∃ node symbol, task = .record node symbol) ∨
      ∃ tag acts a symbol, next = .observe tag acts ∧ a ∈ acts ∧ task = .act a symbol := by
  cases next with
  | select node member =>
    rw [onBound, select_eq_pronounce] at h
    exact .inl ⟨_, _, List.mem_singleton.mp h⟩
  | deliver call slot =>
    rw [onBound, deliver] at h
    split at h
    · cases h
    · simp only at h
      split at h
      · rw [resolve_eq_pronounce] at h
        exact .inl ⟨_, _, List.mem_singleton.mp h⟩
      · cases h
  | compare => cases h
  | observe tag acts =>
    obtain ⟨a, ha, rfl⟩ := List.mem_map.mp h
    exact .inr ⟨tag, acts, a, _, rfl, ha, rfl⟩

/-- Nothing has changed but calls and the journal, and more may have been reported. -/
structure Undisturbed (s s' : State) : Prop where
  graph : s'.graph = s.graph
  groups : s'.groups = s.groups
  scope : s'.scope = s.scope
  typed : s'.typed = s.typed
  waiting : s'.waiting = s.waiting
  blocked : s'.blocked = s.blocked
  diagnostics : s.diagnostics <+: s'.diagnostics

theorem Undisturbed.refl (s : State) : s.Undisturbed s :=
  ⟨rfl, rfl, rfl, rfl, rfl, rfl, List.prefix_rfl⟩

theorem Undisturbed.trans {s'' : State} (h : s.Undisturbed s') (h' : s'.Undisturbed s'') :
    s.Undisturbed s'' :=
  ⟨h'.graph.trans h.graph, h'.groups.trans h.groups, h'.scope.trans h.scope,
    h'.typed.trans h.typed, h'.waiting.trans h.waiting, h'.blocked.trans h.blocked,
    h.diagnostics.trans h'.diagnostics⟩

theorem undisturbed_pronounce (s : State) (node : Mark) (v : Verdict) :
    s.Undisturbed (s.pronounce node v).2 := by
  unfold pronounce voice
  split
  · exact .refl s
  · exact ⟨rfl, rfl, rfl, rfl, rfl, rfl, List.prefix_append ..⟩

theorem undisturbed_mismatch (s : State) (expected found : SymbolId) (origin : Span) :
    s.Undisturbed (s.mismatch expected found origin) := by
  unfold mismatch
  split
  · exact .refl s
  · exact ⟨rfl, rfl, rfl, rfl, rfl, rfl, List.prefix_append ..⟩

theorem undisturbed_infer (s : State) (e : Expr) : s.Undisturbed (s.infer e).2 := by
  cases e with
  | ident node name =>
    rw [infer_ident]
    exact undisturbed_pronounce ..
  | literal | selection | namedArgument => exact .refl s
  | call => exact ⟨rfl, rfl, rfl, rfl, rfl, rfl, List.prefix_rfl⟩
  | sequence | definition | typeLiteral | arrayType | referenceType | extension =>
    exact undisturbed_pronounce s _ (.rejected .unknownNode)

theorem undisturbed_deliver (s : State) (call slot : Nat) (t : TypeId) :
    s.Undisturbed (s.deliver call slot t).2 := by
  unfold deliver
  split
  · exact .refl s
  · have hfiled (calls : Array Gathering) : s.Undisturbed { s with calls := calls } :=
      ⟨rfl, rfl, rfl, rfl, rfl, rfl, List.prefix_rfl⟩
    simp only [resolve_eq_pronounce]
    split
    · exact (hfiled _).trans (undisturbed_pronounce ..)
    · exact hfiled _

theorem undisturbed_onBound (s : State) (next : WhenBound) (t : TypeId) :
    s.Undisturbed (s.onBound next t).2 := by
  cases next with
  | select =>
    rw [onBound, select_eq_pronounce]
    exact undisturbed_pronounce ..
  | deliver => exact undisturbed_deliver ..
  | compare expected origin =>
    simp only [onBound]
    split
    · exact .refl s
    · exact undisturbed_mismatch ..
  | observe => exact ⟨rfl, rfl, rfl, rfl, rfl, rfl, List.prefix_rfl⟩

theorem waiting_step (hs : s.step task = .ok (new, s')) {w : NodeId × WhenTyped}
    (hw : w ∈ s'.waiting) : w ∈ s.waiting ∨ task = .pend w.1 w.2 := by
  cases move_step hs with
  | infer e => exact .inl ((undisturbed_infer s e).waiting ▸ hw)
  | bound next t => exact .inl ((undisturbed_onBound s next t).waiting ▸ hw)
  | mismatch => exact .inl ((undisturbed_mismatch ..).waiting ▸ hw)
  | record => exact .inl (List.mem_of_mem_filter hw)
  | wait =>
    rcases List.mem_append.mp hw with hw | hw
    · exact .inl hw
    · cases List.mem_singleton.mp hw
      exact .inr rfl
  | _ => exact .inl hw

theorem blocked_step (hs : s.step task = .ok (new, s')) {w : SymbolId × Span × WhenBound}
    (hw : w ∈ s'.blocked) :
    w ∈ s.blocked ∨ task = .pendType w.1 w.2.1 w.2.2 ∧ s.graph.bound? w.1 = none := by
  cases move_step hs with
  | infer e => exact .inl ((undisturbed_infer s e).blocked ▸ hw)
  | bound next t => exact .inl ((undisturbed_onBound s next t).blocked ▸ hw)
  | mismatch => exact .inl ((undisturbed_mismatch ..).blocked ▸ hw)
  | wake => exact .inl (List.mem_of_mem_filter hw)
  | block hnone =>
    rcases List.mem_append.mp hw with hw | hw
    · exact .inl hw
    · cases List.mem_singleton.mp hw
      exact .inr ⟨rfl, hnone⟩
  | _ => exact .inl hw

end State
end Binder.Inference
