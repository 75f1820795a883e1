import Binder.Proofs.Inference.Deferral
import Binder.Proofs.TypeGraph.Unfilled

/-! Faults do not cascade. A node is reported only when all of its operands have types other than the
error type, and it gets the error type itself; a node with an operand of the error type gets it, too,
and is passed over in silence. So of two reported nodes none is below the other, whenever and in
whatever order the symbols are bound that the nodes wait for. -/
namespace Binder.Inference

open Binder.Tree (Expr NodeId)

namespace State

/-- The states that inference passes through, with the tasks that are due: expressions are inferred,
their symbols and types compared with others, and from time to time symbols are bound or unified. -/
inductive Course : List Expr → State → List Task → Prop
  | start {g : TypeGraph} {scope : Scope Declaration} : Prelude.graph.Grows g → g.Closed →
      Course [] (State.initial g scope) []
  | step {E : List Expr} {s s' : State} {task : Task} {new rest : List Task} :
      Course E s (task :: rest) → s.step task = .ok (new, s') → Course E s' (new ++ rest)
  /-- no node has the number of another one -/
  | infer {E : List Expr} {s : State} {e : Expr} : Course E s [] →
      ((E ++ e.reached).map Tree.Node.id).Nodup → Course (E ++ e.reached) s [.infer e]
  | initialise {E : List Expr} {s : State} {x : Expr} {value : SymbolId} : Course E s [] → x ∈ E →
      Course E s [.pend x.id (.initialise value x.span)]
  | compare {E : List Expr} {s : State} {x : Expr} {expected : SymbolId} : Course E s [] → x ∈ E →
      Course E s [.pend x.id (.resolve x.span (.compare expected x.span))]
  | unify {E : List Expr} {s s' : State} {a b : SymbolId} {unified : Bool} : Course E s [] →
      s.unify a b = .ok (unified, s') → Course E s' [.settle]
  | bind {E : List Expr} {s : State} {g : TypeGraph} : Course E s [] → s.graph.Grows g → g.Closed →
      Course E (s.setGraph g) []
  | bound {E : List Expr} {s : State} {symbol : SymbolId} : Course E s [] →
      Course E (s.settleBound symbol) [.wake symbol, .settle]

variable {E : List Expr} {s s' : State} {task : Task} {ts rest new : List Task} {x y : Expr}
  {v : Verdict} {a b : SymbolId} {g : TypeGraph} {n : NodeId} {t : TypeId}

/-- A node has a symbol or is about to get it. -/
def Recorded (s : State) (ts : List Task) (node : NodeId) (symbol : SymbolId) : Prop :=
  Task.record node symbol ∈ ts ∨ s.typeOf? node = some symbol

/-- The type of the node is known and not the error type. -/
def Sane (s : State) (x : Expr) : Prop :=
  ∃ t, s.resolved? x.id = some t ∧ s.graph.isErrorType t = false

/-- Whoever has this symbol has the error type if the operand has it. -/
def Inherits (s : State) (y : Expr) (a : SymbolId) : Prop :=
  s.typeOf? y.id = some a ∨
    ∃ t, s.resolved? y.id = some t ∧ (s.graph.isErrorType t → a = Prelude.error)

/-- What a verdict says about a node and its operands. -/
structure Fair (s : State) (x : Expr) (v : Verdict) : Prop where
  rejects : ∀ fault, v.fault = some fault →
    v.symbol = Prelude.error ∧ isMismatch fault = false ∧ ∀ y ∈ x.operands, s.Sane y
  inherits : ∀ y ∈ x.operands, s.Inherits y v.symbol

theorem fair_of_silent (h : ∀ y ∈ x.operands, ∃ t, s.resolved? y.id = some t) :
    s.Fair x .silent where
  rejects := nofun
  inherits y hy := by
    obtain ⟨t, ht⟩ := h y hy
    exact .inr ⟨t, ht, fun _ => rfl⟩

theorem fair_of_sane (h : ∀ y ∈ x.operands, s.Sane y)
    (hv : ∀ fault, v.fault = some fault → v.symbol = Prelude.error ∧ isMismatch fault = false) :
    s.Fair x v where
  rejects fault hfault := ⟨(hv fault hfault).1, (hv fault hfault).2, h⟩
  inherits y hy := by
    obtain ⟨t, ht, hsane⟩ := h y hy
    exact .inr ⟨t, ht, fun herror => by simp [hsane] at herror⟩

theorem fair_of_rejected {fault : Fault} (h : ∀ y ∈ x.operands, s.Sane y)
    (hfault : isMismatch fault = false) : s.Fair x (.rejected fault) :=
  fair_of_sane h fun _ h => by cases h; exact ⟨rfl, hfault⟩

theorem fair_of_found (h : ∀ y ∈ x.operands, s.Sane y) (a : SymbolId) : s.Fair x ⟨a, none⟩ :=
  fair_of_sane h nofun

theorem fair_of_verdict? (h : s.verdict? x = some v) : s.Fair x v := by
  cases x with
  | literal =>
    cases h
    exact fair_of_found (List.forall_mem_nil _) _
  | ident =>
    cases h
    unfold Verdict.ofName
    split
    · exact fair_of_found (List.forall_mem_nil _) _
    · exact fair_of_rejected (List.forall_mem_nil _) rfl
    · exact fair_of_rejected (List.forall_mem_nil _) rfl
  | selection note target member =>
    obtain ⟨t, ht, rfl⟩ := Option.map_eq_some_iff.mp h
    unfold Verdict.ofMember
    split
    next => exact fair_of_silent fun y hy => ⟨t, List.mem_singleton.mp hy ▸ ht⟩
    next herror =>
      have hsane : ∀ y ∈ (Tree.Node.selection note target member).operands, s.Sane y :=
        fun y hy => ⟨t, List.mem_singleton.mp hy ▸ ht, by simpa using herror⟩
      split
      · exact fair_of_found hsane _
      · exact fair_of_rejected hsane rfl
  | call note target arguments =>
    simp only [verdict?] at h
    split at h
    next hall =>
      cases h
      have hresolved : ∀ y ∈ target :: arguments, ∃ t, s.resolved? y.id = some t := by
        rw [List.all_map, List.all_eq_true] at hall
        exact fun y hy => Option.isSome_iff_exists.mp (hall y hy)
      generalize htypes : ((target :: arguments).map fun e => s.resolved? e.id).filterMap id = types
      have hmem : ∀ {y t}, y ∈ target :: arguments → s.resolved? y.id = some t → t ∈ types := by
        intro y t hy ht
        rw [← htypes, List.mem_filterMap]
        exact ⟨_, List.mem_map_of_mem hy, ht⟩
      cases types with
      | nil => exact fair_of_silent hresolved
      | cons first others =>
        rw [Verdict.ofCall]
        split
        next => exact fair_of_silent hresolved
        next herror =>
          have hsane : ∀ y ∈ (Tree.Node.call note target arguments).operands, s.Sane y := by
            intro y hy
            obtain ⟨t, ht⟩ := hresolved y hy
            rw [Bool.not_eq_true, List.any_eq_false] at herror
            exact ⟨t, ht, by simpa using herror t (hmem hy ht)⟩
          split
          · exact fair_of_rejected hsane rfl
          · split
            · exact fair_of_found hsane _
            · exact fair_of_rejected hsane rfl
    next => cases h
  | namedArgument note name value =>
    obtain ⟨symbol, hsymbol, rfl⟩ := Option.map_eq_some_iff.mp h
    exact ⟨fun _ hfault => (by cases hfault), fun y hy => .inl (List.mem_singleton.mp hy ▸ hsymbol)⟩
  | sequence | definition | typeLiteral | arrayType | referenceType | extension =>
    cases h
    exact fair_of_rejected (List.forall_mem_nil _) rfl

theorem recorded_iff :
    s.Recorded ts n a ↔ (n, a) ∈ records ts ∨ s.typeOf? n = some a := by
  rw [Recorded, mem_records]

namespace Turn

variable {n : NodeId}

theorem typed (h : Turn E s task new s') (hn : s.typeOf? n = some a) :
    s'.typeOf? n = some a := by
  cases h with
  | @verdict x v hx hv htask hnew hafter =>
    rw [hafter]
    cases v.fault <;> exact hn
  | record htask hafter => exact typeOf?_record hafter hn
  | pass htask hnew htyped =>
    rw [typeOf?, htyped]
    exact hn

theorem keeps (h : Turn E s task new s') (hn : s.Recorded (task :: rest) n a) :
    s'.Recorded (new ++ rest) n a := by
  rw [recorded_iff, records_cons, List.mem_append] at hn
  rw [recorded_iff, records_append, List.mem_append]
  rcases hn with (hdue | hrest) | htyped
  · cases h with
    | verdict hx hv htask | pass htask =>
      rw [htask] at hdue
      cases hdue
    | record htask hafter =>
      subst htask
      cases List.mem_singleton.mp hdue
      refine .inr ?_
      rw [(record_eq hafter).2, typeOf?, List.lookup_cons_self]
  · exact .inl (.inr hrest)
  · exact .inr (h.typed htyped)

theorem source (h : Turn E s task new s') (hE : Inferable E) (hx : x ∈ E)
    (hn : s'.Recorded (new ++ rest) x.id a) :
    s.Recorded (task :: rest) x.id a ∨ ∃ v, s.verdict? x = some v ∧ v.symbol = a := by
  rw [recorded_iff, records_append, List.mem_append] at hn
  rw [recorded_iff, records_cons, List.mem_append]
  cases h with
  | @verdict z v hz hv htask hnew hafter =>
    subst hnew
    rcases hn with (hdue | hrest) | htyped
    · obtain ⟨hid, rfl⟩ := Prod.mk.inj (List.mem_singleton.mp hdue)
      cases hE.distinct x hx z hz hid
      exact .inr ⟨v, hv, rfl⟩
    · exact .inl (.inl (.inr hrest))
    · refine .inl (.inr ?_)
      rw [hafter] at htyped
      cases hfault : v.fault <;> simpa [hfault, voice, report, typeOf?] using htyped
  | record htask hafter =>
    obtain ⟨hnew, rfl⟩ := record_eq hafter
    subst htask
    rw [hnew] at hn
    rcases hn with (hdue | hrest) | htyped
    · cases hdue
    · exact .inl (.inl (.inr hrest))
    · rw [typeOf?, List.lookup_cons] at htyped
      split at htyped
      next heq =>
        cases htyped
        rw [beq_iff_eq.mp heq]
        exact .inl (.inl (.inl List.mem_cons_self))
      next => exact .inl (.inr htyped)
  | pass htask hnew htyped' =>
    rw [hnew] at hn
    rcases hn with (hdue | hrest) | htyped
    · cases hdue
    · exact .inl (.inl (.inr hrest))
    · rw [typeOf?, htyped'] at htyped
      exact .inl (.inr htyped)

end Turn

/-- A later state, with a graph that only got more definite. -/
structure Sharpens (s s' : State) : Prop where
  typed : ∀ {n a}, s.typeOf? n = some a → s'.typeOf? n = some a
  graph : s.graph.Grows s'.graph
  closed : s.graph.Closed

namespace Sharpens

variable (h : s.Sharpens s')

include h

theorem resolved? (ht : s.resolved? n = some t) :
    s'.resolved? n = some t ∧ s'.graph.isErrorType t = s.graph.isErrorType t := by
  obtain ⟨a, ha, hb⟩ := Option.bind_eq_some_iff.mp ht
  exact ⟨Option.bind_eq_some_iff.mpr ⟨a, h.typed ha, h.graph.bound hb⟩,
    TypeGraph.isErrorType_eq h.graph (h.closed hb)⟩

theorem sane (hy : s.Sane y) : s'.Sane y := by
  obtain ⟨t, ht, hsane⟩ := hy
  obtain ⟨ht', heq⟩ := h.resolved? ht
  exact ⟨t, ht', heq.trans hsane⟩

theorem inherits (hy : s.Inherits y a) : s'.Inherits y a := by
  rcases hy with hcopied | ⟨t, ht, herror⟩
  · exact .inl (h.typed hcopied)
  · obtain ⟨ht', heq⟩ := h.resolved? ht
    exact .inr ⟨t, ht', fun h => herror (heq ▸ h)⟩

end Sharpens

/-- Inference has reported the node. -/
def Reported (s : State) (x : Expr) : Prop :=
  ∃ d ∈ s.diagnostics, isMismatch d.fault = false ∧ d.span = x.span

/-- Who is to blame for what was reported, and how the error type is passed on. -/
structure Blames (E : List Expr) (s : State) (ts : List Task) : Prop where
  provenance : s.Provenance E ts
  linear : s.Linear ts
  counted : ∀ n, owed (.toNode n) ts + s.tally n = Tree.count n E
  prelude : Prelude.graph.Grows s.graph
  closed : s.graph.Closed
  charged : ∀ d ∈ s.diagnostics, isMismatch d.fault = false → ∃ x ∈ E, x.span = d.span ∧
    s.Recorded ts x.id Prelude.error ∧ ∀ y ∈ x.operands, s.Sane y
  inherits : ∀ x ∈ E, ∀ a, s.Recorded ts x.id a → ∀ y ∈ x.operands, s.Inherits y a

namespace Blames

theorem step (h : s.Blames E (task :: rest)) (hs : s.step task = .ok (new, s')) :
    s'.Blames E (new ++ rest) := by
  have hturn := h.provenance.turn h.linear.toDelivering hs
  have hextends := extends_step hs
  have hsharpens : s.Sharpens s' := ⟨hturn.typed, hextends.grows, h.closed⟩
  have hold : ∀ d ∈ s.diagnostics, isMismatch d.fault = false → ∃ x ∈ E, x.span = d.span ∧
      s'.Recorded (new ++ rest) x.id Prelude.error ∧ ∀ y ∈ x.operands, s'.Sane y := by
    intro d hd hfault
    obtain ⟨x, hx, hspan, hrecorded, hsane⟩ := h.charged d hd hfault
    exact ⟨x, hx, hspan, hturn.keeps hrecorded, fun y hy => hsharpens.sane (hsane y hy)⟩
  constructor
  · exact h.provenance.step hs
  · exact h.linear.step hs
  · intro n
    have hn := h.counted n
    have htally := tally_step n h.linear.toDelivering hs
    rw [owed_cons] at hn
    rw [owed_append]
    omega
  · exact h.prelude.trans hextends.grows
  · exact hextends.closed h.closed
  · intro d hd hfault
    cases hturn with
    | @verdict x v hx hv htask hnew hafter =>
      obtain ⟨symbol, fault⟩ := v
      cases fault with
      | none =>
        rw [hafter] at hd
        exact hold d hd hfault
      | some fault =>
        rw [hafter] at hd
        rcases List.mem_append.mp hd with hd | hd
        · exact hold d hd hfault
        · cases List.mem_singleton.mp hd
          obtain ⟨rfl, -, hsane⟩ := (fair_of_verdict? hv).rejects fault rfl
          refine ⟨x, hx, rfl, .inl ?_, fun y hy => hsharpens.sane (hsane y hy)⟩
          rw [hnew]
          exact List.mem_cons_self
    | record htask hafter =>
      rw [(record_eq hafter).2] at hd
      exact hold d hd hfault
    | pass htask hnew htyped hscope hreports =>
      rcases hreports with hsame | ⟨d', hmismatch, hadded⟩
      · exact hold d (hsame ▸ hd) hfault
      · rw [hadded] at hd
        rcases List.mem_append.mp hd with hd | hd
        · exact hold d hd hfault
        · rw [List.mem_singleton.mp hd, hmismatch] at hfault
          cases hfault
  · intro x hx a hrecorded y hy
    rcases hturn.source h.provenance.toInferable hx hrecorded with hbefore | ⟨v, hv, rfl⟩
    · exact hsharpens.inherits (h.inherits x hx a hbefore y hy)
    · exact hsharpens.inherits ((fair_of_verdict? hv).inherits y hy)

theorem initial (hg : Prelude.graph.Grows g) (hclosed : g.Closed) (scope : Scope Declaration) :
    (State.initial g scope).Blames [] [] where
  provenance := (Followed.initial g scope).provenance
  linear := (Followed.initial g scope).linear
  counted _ := rfl
  prelude := hg
  closed := hclosed
  charged := nofun
  inherits := nofun

theorem begin {F : List Expr} (h : s.Blames E []) (hF : ∀ e ∈ F, ∀ x ∈ e.operands, x ∈ F)
    (hcount : ∀ n, Tree.count n (E ++ F) ≤ 1) (htraced : ∀ task ∈ ts, s.Traced (E ++ F) task)
    (hslots : ∀ call slot, owed (.toSlot call slot) ts = 0)
    (hnodes : ∀ n, owed (.toNode n) ts = Tree.count n F) (hrecords : records ts = []) :
    s.Blames (E ++ F) ts := by
  have hinferable := inferable_append h.provenance.operands hF hcount
  have htally : ∀ n, owed (.toNode n) ts + s.tally n = Tree.count n (E ++ F) := by
    intro n
    have hn := h.counted n
    rw [owed_nil] at hn
    rw [hnodes, Tree.count_append]
    omega
  have hrecorded : ∀ {n a}, s.Recorded ts n a → s.typeOf? n = some a := by
    intro n a hn
    rw [recorded_iff, hrecords] at hn
    exact hn.resolve_left List.not_mem_nil
  constructor
  · exact h.provenance.widen (List.subset_append_left E F) hinferable htraced
  · exact h.linear.begin hslots fun n => htally n ▸ hcount n
  · exact htally
  · exact h.prelude
  · exact h.closed
  · intro d hd hfault
    obtain ⟨x, hx, hspan, hrecorded, hsane⟩ := h.charged d hd hfault
    refine ⟨x, List.mem_append_left F hx, hspan, .inr ?_, hsane⟩
    exact hrecorded.resolve_left List.not_mem_nil
  · intro x hx a hx' y hy
    have htyped := hrecorded hx'
    rcases List.mem_append.mp hx with hE | hF
    · exact h.inherits x hE a (.inr htyped) y hy
    · -- what is still to be inferred has no symbol
      have hone := one_le_tally (Option.isSome_iff_exists.mpr ⟨a, htyped⟩)
      have hn := h.counted x.id
      have hle := hcount x.id
      have hpos : 0 < Tree.count x.id F := List.countP_pos_iff.mpr ⟨x, hF, by simp⟩
      rw [owed_nil] at hn
      rw [Tree.count_append] at hle
      omega

theorem due (h : s.Blames E []) (htraced : ∀ task ∈ ts, s.Traced E task)
    (hfree : ∀ k, owed k ts = 0) (hrecords : records ts = []) : s.Blames E ts := by
  have hcount : ∀ n, Tree.count n (E ++ []) ≤ 1 := by
    intro n
    have honce := h.linear.once n
    have hn := h.counted n
    rw [List.append_nil]
    omega
  rw [← List.append_nil E]
  exact h.begin nofun hcount (by rwa [List.append_nil]) (fun _ _ => hfree _) (fun _ => hfree _) hrecords

theorem infer (h : s.Blames E []) {e : Expr} (hids : ((E ++ e.reached).map Tree.Node.id).Nodup) :
    s.Blames (E ++ e.reached) [.infer e] := by
  apply h.begin ?_ ?_ ?_ ?_ ?_ rfl
  · intro x hx y hy
    exact Tree.operand_mem_reached hy e hx
  · intro n
    refine Nat.le_trans (Nat.le_of_eq ?_) (List.nodup_iff_count_le_one.mp hids n)
    rw [List.count, List.countP_map, Tree.count]
    congr 1
  · intro task htask
    rw [List.mem_singleton.mp htask]
    exact List.mem_append_right E (Tree.mem_reached_self e)
  · intro call slot
    rw [owed_cons, owed_nil, Task.charge, inferCharge_eq_zero fun _ => rfl]
  · intro n
    rw [owed_cons, owed_nil, Nat.add_zero, Task.charge, inferCharge_eq_count]

theorem meanwhile (h : s.Blames E []) (hgrows : s.graph.Grows g) (hclosed : g.Closed)
    (groups : Groups) : Blames E { s with graph := g, groups := groups } [] := by
  have hsharpens : s.Sharpens { s with graph := g, groups := groups } := ⟨id, hgrows, h.closed⟩
  constructor
  · exact h.provenance.mono (.of_eq rfl hgrows rfl) rfl rfl rfl
  · exact h.linear.congr rfl rfl rfl rfl
  · exact h.counted
  · exact h.prelude.trans hgrows
  · exact hclosed
  · intro d hd hfault
    obtain ⟨x, hx, hspan, hrecorded, hsane⟩ := h.charged d hd hfault
    exact ⟨x, hx, hspan, hrecorded, fun y hy => hsharpens.sane (hsane y hy)⟩
  · exact fun x hx a hrecorded y hy => hsharpens.inherits (h.inherits x hx a hrecorded y hy)

theorem unique (h : s.Blames E ts) (hdue : s.Recorded ts n a)
    (htyped : s.typeOf? n = some b) : a = b := by
  rcases hdue with hdue | htyped'
  · have honce := h.linear.once n
    have hone := one_le_tally (Option.isSome_iff_exists.mpr ⟨b, htyped⟩)
    obtain ⟨us, vs, rfl⟩ := List.append_of_mem hdue
    rw [owed_append, owed_cons] at honce
    simp only [Task.charge, Charge.toNode, ↓reduceIte] at honce
    omega
  · rw [htyped] at htyped'
    cases htyped'
    rfl

theorem isErrorType_of_bound? (hg : Prelude.graph.Grows g) (h : g.bound? Prelude.error = some t) :
    g.isErrorType t := by
  have hbound : Prelude.graph.bound? Prelude.error = some ⟨28⟩ := rfl
  cases (hg.bound hbound).symm.trans h
  exact (TypeGraph.isErrorType_eq hg (by decide)).trans rfl

/-- Everything above a reported node has the error type. -/
theorem error_above (h : s.Blames E ts) (hx : s.Recorded ts x.id Prelude.error) (y : Expr)
    (hy : y ∈ E) (hmem : x ∈ y.reached) {a : SymbolId} (htyped : s.typeOf? y.id = some a) :
    a = Prelude.error := by
  induction y using Tree.operands_induction generalizing a with
  | h y ih =>
    rcases Tree.mem_reached_iff.mp hmem with rfl | ⟨z, hz, hbelow⟩
    · exact (h.unique hx htyped).symm
    · have hzE := h.provenance.operands y hy z hz
      rcases h.inherits y hy a (.inr htyped) z hz with hcopied | ⟨t, ht, herror⟩
      · exact ih z hz hzE hbelow hcopied
      · obtain ⟨b, hb, hbound⟩ := Option.bind_eq_some_iff.mp ht
        cases ih z hz hzE hbelow hb
        exact herror (isErrorType_of_bound? h.prelude hbound)

end Blames

theorem Course.blames (h : Course E s ts) : s.Blames E ts := by
  induction h with
  | start hg hclosed => exact .initial hg hclosed _
  | step _ hs ih => exact ih.step hs
  | infer _ hids ih => exact ih.infer hids
  | initialise _ hx ih =>
    refine ih.due ?_ (fun _ => rfl) rfl
    intro task htask
    rw [List.mem_singleton.mp htask]
    exact ⟨_, hx, rfl⟩
  | compare _ hx ih =>
    refine ih.due ?_ (fun _ => rfl) rfl
    intro task htask
    rw [List.mem_singleton.mp htask]
    exact ⟨_, hx, rfl, rfl, trivial⟩
  | unify _ hu ih =>
    have hextends := extends_unify hu
    obtain ⟨graph, groups, -, rfl⟩ := unify_eq hu
    refine (ih.meanwhile hextends.grows (hextends.closed ih.closed) groups).due ?_ (fun _ => rfl) rfl
    intro task htask
    rw [List.mem_singleton.mp htask]
    trivial
  | bind _ hgrows hclosed ih => exact ih.meanwhile hgrows hclosed _
  | @bound _ s symbol _ ih =>
    have hextends := extends_settleBound s symbol
    refine (ih.meanwhile hextends.grows (hextends.closed ih.closed) _).due ?_ (fun _ => rfl) rfl
    intro task htask
    rcases List.mem_cons.mp htask with rfl | htask
    · trivial
    · rw [List.mem_singleton.mp htask]
      trivial

theorem Course.run (h : Course E s ts) (hrun : s.run ts = (s', .ok ())) : Course E s' [] :=
  run_keeps .step s ts h hrun

/-- Inference reports nodes of the expressions and nothing else. Such a node has the error type, but
its operands have other types, and of what is below it nothing is reported. -/
theorem Course.faults_do_not_cascade (h : Course E s ts)
    (hspans : ∀ x ∈ E, ∀ y ∈ E, x.span = y.span → x = y) :
    (∀ d ∈ s.diagnostics, isMismatch d.fault = false → ∃ x ∈ E, x.span = d.span) ∧
    ∀ x ∈ E, s.Reported x → s.Recorded ts x.id Prelude.error ∧ (∀ y ∈ x.operands, s.Sane y) ∧
      ∀ y ∈ x.reached, s.Reported y → y = x := by
  have hblames := h.blames
  have hcharged : ∀ x ∈ E, s.Reported x →
      s.Recorded ts x.id Prelude.error ∧ ∀ y ∈ x.operands, s.Sane y := by
    rintro x hx ⟨d, hd, hfault, hspan⟩
    obtain ⟨z, hz, hzspan, hrecorded, hsane⟩ := hblames.charged d hd hfault
    cases hspans z hz x hx (hzspan.trans hspan)
    exact ⟨hrecorded, hsane⟩
  refine ⟨?_, ?_⟩
  · intro d hd hfault
    obtain ⟨x, hx, hspan, -⟩ := hblames.charged d hd hfault
    exact ⟨x, hx, hspan⟩
  · intro x hx hreported
    obtain ⟨hrecorded, hsane⟩ := hcharged x hx hreported
    refine ⟨hrecorded, hsane, ?_⟩
    intro y hy hreported'
    rcases Tree.mem_reached_iff.mp hy with rfl | ⟨z, hz, hbelow⟩
    · rfl
    · -- the operand above the other node would have the error type
      obtain ⟨t, ht, hnot⟩ := hsane z hz
      obtain ⟨b, hb, hbound⟩ := Option.bind_eq_some_iff.mp ht
      have hzE := hblames.provenance.operands x hx z hz
      have hyE := hblames.provenance.toInferable.reached z hzE hbelow
      cases hblames.error_above (hcharged y hyE hreported').1 z hzE hbelow hb
      rw [Blames.isErrorType_of_bound? hblames.prelude hbound] at hnot
      cases hnot

def troubled : Expr :=
  let mark (n : Nat) : Tree.Mark := ⟨⟨n⟩, ⟨n.toUInt32, default, default⟩⟩
  .call (mark 0) (.ident (mark 1) "missing") [.selection (mark 2) (.ident (mark 3) "v") "a"]

/-- A state in which nothing is known of the type of `v`. -/
def untroubled : State :=
  .initial (Prelude.graph.newSymbol "v").2 (.table [.value ⟨"v", ⟨29⟩, .field false⟩])

/-- The call is inferred before the type of `v` is known. -/
def aftermath : State :=
  (Inference.unify (Inference.infer untroubled troubled).1 ⟨29⟩ Builtin.int.symbol).1

theorem Course.faults_do_not_cascade_aftermath :
    aftermath.diagnostics.map Diagnostic.fault = [.symbolNotFound, .memberNotFound] ∧
    ∀ x ∈ troubled.reached, aftermath.Reported x → aftermath.Recorded [] x.id Prelude.error ∧
      (∀ y ∈ x.operands, aftermath.Sane y) ∧ ∀ y ∈ x.reached, aftermath.Reported y → y = x := by
  have hg := TypeGraph.unfilled_prelude.newSymbol "v"
  have hclosed : (Prelude.graph.newSymbol "v").2.Closed := fun _ _ hb =>
    (hg.orderly (V := []) nofun).types hb
  have hstart : Course [] untroubled [] := .start hg.grows hclosed
  have hinferred := (hstart.infer (e := troubled) (by decide)).run (Prod.ext rfl (by decide +kernel))
  have hunified : Inference.unify (Inference.infer untroubled troubled).1 ⟨29⟩ Builtin.int.symbol =
      (aftermath, .ok true) := Prod.ext rfl (by decide +kernel)
  obtain ⟨s', hu, hrun⟩ := exists_of_unify_ok hunified
  refine ⟨by decide +kernel, (((hinferred.unify hu).run hrun).faults_do_not_cascade ?_).2⟩
  have hspans : (troubled.reached.map Tree.Node.span).Nodup := by decide
  intro x hx y hy h
  exact List.inj_on_of_nodup_map hspans hx hy h

end State
end Binder.Inference
