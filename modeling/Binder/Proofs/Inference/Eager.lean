import Binder.Proofs.Inference.Reading
import Binder.Proofs.Inference.Wakeup
import Binder.Proofs.Inference.Ruling

/-! Inference without waiting. Where the types of all operands can be read off the graph, an expression
is inferred in one go: its nodes get the symbols that can be read off, operands first, and each verdict
is reported as it is reached. Nothing is left waiting, and whatever was due before goes on. -/
namespace Binder

namespace Tree

variable {α : Type}

mutual

/-- The nodes that are inferred with a node, each after its operands. -/
def Node.postorder : Node α → List (Node α)
  | .selection note target member => target.postorder ++ [.selection note target member]
  | .call note target arguments =>
      target.postorder ++ postorderOf arguments ++ [.call note target arguments]
  | .namedArgument note name value => value.postorder ++ [.namedArgument note name value]
  | node => [node]

def postorderOf : List (Node α) → List (Node α)
  | [] => []
  | node :: rest => node.postorder ++ postorderOf rest

end

theorem mem_postorderOf {x : Node α} {es : List (Node α)} :
    x ∈ postorderOf es ↔ ∃ e ∈ es, x ∈ e.postorder := by
  induction es with
  | nil => simp [postorderOf]
  | cons e es ih => simp [postorderOf, ih]

theorem exists_postorder_eq (e : Node α) : ∃ xs, e.postorder = xs ++ [e] := by
  cases e with
  | selection | call | namedArgument => exact ⟨_, by rw [Node.postorder]⟩
  | literal | ident | sequence | definition | typeLiteral | arrayType | referenceType | extension =>
    exact ⟨[], rfl⟩

theorem mem_postorder_self (e : Node α) : e ∈ e.postorder := by
  obtain ⟨xs, hxs⟩ := exists_postorder_eq e
  rw [hxs]
  exact List.mem_append_right xs List.mem_cons_self

end Tree

namespace Inference

open Binder.Tree (Expr Mark Node NodeId postorderOf)

variable {g : TypeGraph} {scope : Scope Declaration} {v : Verdict} {r : Ruling} {e : Expr}

def rulings (g : TypeGraph) (scope : Scope Declaration) (nodes : List Expr) : List Ruling :=
  nodes.filterMap fun x => (reading? g scope x).map (Ruling.mk x)

@[simp] theorem rulings_append (xs ys : List Expr) :
    rulings g scope (xs ++ ys) = rulings g scope xs ++ rulings g scope ys := List.filterMap_append

theorem rulings_postorderOf (e : Expr) (es : List Expr) :
    rulings g scope (postorderOf (e :: es)) =
      rulings g scope e.postorder ++ rulings g scope (postorderOf es) := by
  rw [postorderOf, rulings_append]

theorem rulings_singleton {x : Expr} (h : reading? g scope x = some v) :
    rulings g scope [x] = [⟨x, v⟩] := by
  simp [rulings, h]

theorem mem_rulings {xs : List Expr} :
    r ∈ rulings g scope xs ↔ r.node ∈ xs ∧ reading? g scope r.node = some r.verdict := by
  simp only [rulings, List.mem_filterMap, Option.map_eq_some_iff]
  constructor
  · rintro ⟨x, hx, v, hv, rfl⟩
    exact ⟨hx, hv⟩
  · rintro ⟨hx, hv⟩
    exact ⟨r.node, hx, r.verdict, hv, rfl⟩

namespace State

variable {s s' : State} {e x : Expr} {xs ys : List Expr} {R R' : List Ruling} {v : Verdict}
  {t : TypeId} {node : NodeId}

/-- The state after verdicts were pronounced one after the other and calls were filed. -/
def learn (s : State) (R : List Ruling) (calls : Array Gathering) : State :=
  { s with
    typed := (R.map Ruling.entry).reverse ++ s.typed
    diagnostics := s.diagnostics ++ R.flatMap Ruling.reports
    calls := calls }

theorem learn_learn (R R' : List Ruling) (calls calls' : Array Gathering) :
    (s.learn R calls).learn R' calls' = s.learn (R ++ R') calls' := by
  simp [learn]

/-- The nodes are distinct, none of them has a symbol, and nothing waits for one. -/
structure Fresh (s : State) (xs : List Expr) : Prop where
  nodup : (xs.map Node.id).Nodup
  untyped : ∀ x ∈ xs, s.typeOf? x.id = none
  unawaited : ∀ x ∈ xs, ∀ w ∈ s.waiting, w.1 ≠ x.id

theorem Fresh.congr (h : s.Fresh xs) (htyped : s'.typed = s.typed)
    (hwaiting : s'.waiting = s.waiting) : s'.Fresh xs where
  nodup := h.nodup
  untyped x hx := by
    rw [typeOf?, htyped]
    exact h.untyped x hx
  unawaited x hx w hw := h.unawaited x hx w (hwaiting ▸ hw)

theorem Fresh.left (h : s.Fresh (xs ++ ys)) : s.Fresh xs where
  nodup := by
    have hnodup := h.nodup
    rw [List.map_append] at hnodup
    exact hnodup.of_append_left
  untyped x hx := h.untyped x (List.mem_append_left ys hx)
  unawaited x hx := h.unawaited x (List.mem_append_left ys hx)

theorem typeOf?_learn_of_notMem (h : ∀ r ∈ R, r.node.id ≠ node)
    (calls : Array Gathering) : (s.learn R calls).typeOf? node = s.typeOf? node := by
  have hnone : ((R.map Ruling.entry).reverse).lookup node = none := by
    rw [List.lookup_eq_none_iff]
    intro entry hentry
    obtain ⟨r, hr, rfl⟩ := List.mem_map.mp (List.mem_reverse.mp hentry)
    simpa [Ruling.entry] using (h r hr).symm
  simp only [typeOf?, learn, List.lookup_append, hnone, Option.none_or]

theorem Fresh.ne_of_mem (h : s.Fresh (xs ++ ys)) (hr : r ∈ rulings g scope xs)
    (hx : x ∈ ys) : r.node.id ≠ x.id := by
  intro heq
  have hnodup := h.nodup
  rw [List.map_append] at hnodup
  refine List.disjoint_of_nodup_append hnodup (List.mem_map_of_mem (mem_rulings.mp hr).1) ?_
  rw [heq]
  exact List.mem_map_of_mem hx

theorem Fresh.right (h : s.Fresh (xs ++ ys)) (calls : Array Gathering) :
    (s.learn (rulings g scope xs) calls).Fresh ys where
  nodup := by
    have hnodup := h.nodup
    rw [List.map_append] at hnodup
    exact hnodup.of_append_right
  untyped y hy := by
    rw [typeOf?_learn_of_notMem fun r hr => h.ne_of_mem hr hy]
    exact h.untyped y (List.mem_append_right xs hy)
  unawaited y hy := h.unawaited y (List.mem_append_right xs hy)

theorem typeOf?_learn_self (h : reading? g scope e = some v) (calls : Array Gathering) :
    (s.learn (rulings g scope e.postorder) calls).typeOf? e.id = some v.symbol := by
  obtain ⟨xs, hxs⟩ := Tree.exists_postorder_eq e
  rw [hxs, rulings_append, rulings_singleton h]
  simp [typeOf?, learn, Ruling.entry]

theorem run_pronounce {node : Mark} (h : s.Fresh [x]) (hid : node.id = x.id)
    (hspan : node.span = x.span) (v : Verdict) (rest : List Task) :
    (s.pronounce node v).2.run ((s.pronounce node v).1 ++ rest) =
      (s.learn [⟨x, v⟩] s.calls).run rest := by
  have hpronounce : (s.pronounce node v).2 =
      { s with diagnostics := s.diagnostics ++ (Ruling.mk x v).reports } := by
    cases v with
    | mk symbol fault =>
      cases fault <;> simp [pronounce, voice, report, Ruling.reports, hspan]
  have huntyped : s.typed.lookup node.id = none := by
    rw [hid]
    exact h.untyped x List.mem_cons_self
  have hdue : s.waiting.filter (fun w => decide (w.1 = node.id)) = [] := by
    rw [List.filter_eq_nil_iff]
    intro w hw
    simpa [hid] using h.unawaited x List.mem_cons_self w hw
  have hkept : s.waiting.filter (fun w => !decide (w.1 = node.id)) = s.waiting := by
    rw [List.filter_eq_self]
    intro w hw
    simpa [hid] using h.unawaited x List.mem_cons_self w hw
  have hstep : (s.pronounce node v).2.step (.record node.id v.symbol) =
      .ok ([], s.learn [⟨x, v⟩] s.calls) := by
    rw [hpronounce]
    simp only [step, record, typeOf?, huntyped, Option.isSome_none, Bool.false_eq_true, ↓reduceIte,
      hdue, hkept, List.map_nil]
    simp [learn, Ruling.entry, hid]
  exact run_cons_ok hstep

theorem run_pronounce_last (h : s.Fresh (xs ++ [e])) (hv : reading? s.graph s.scope e = some v)
    (calls : Array Gathering) (rest : List Task) :
    ((s.learn (rulings s.graph s.scope xs) calls).pronounce e.note v).2.run
        (((s.learn (rulings s.graph s.scope xs) calls).pronounce e.note v).1 ++ rest) =
      (s.learn (rulings s.graph s.scope (xs ++ [e])) calls).run rest := by
  rw [rulings_append, rulings_singleton hv, ← learn_learn _ _ calls calls]
  exact run_pronounce (h.right calls) rfl rfl v rest

theorem run_pend_resolve {symbol : SymbolId} {origin : Span} {next : WhenBound}
    (hsymbol : s.typeOf? node = some symbol) (hbound : s.graph.bound? symbol = some t)
    (rest : List Task) : s.run (.pend node (.resolve origin next) :: rest) =
      (s.onBound next t).2.run ((s.onBound next t).1 ++ rest) := by
  have hpend : s.step (.pend node (.resolve origin next)) =
      .ok ([.typed (.resolve origin next) symbol], s) := by
    simp [step, pend, hsymbol]
  have htyped : s.step (.typed (.resolve origin next) symbol) =
      .ok ([.pendType symbol origin next], s) := rfl
  have hpendType : s.step (.pendType symbol origin next) = .ok ([.bound next t], s) := by
    simp [step, pendType, hbound]
  rw [run_cons_ok hpend, List.singleton_append, run_cons_ok htyped, List.singleton_append,
    run_cons_ok hpendType, List.singleton_append]
  exact run_cons_ok rfl

/-- The tasks lead to verdicts at once, whatever else is due; calls may be filed on the way. -/
def Attains (s : State) (ts : List Task) (R : List Ruling) : Prop :=
  ∃ calls : Array Gathering, (∀ i < s.calls.size, calls[i]? = s.calls[i]?) ∧
    ∀ rest, s.run (ts ++ rest) = (s.learn R calls).run rest

theorem attains_infer_of_pronounce (hfresh : s.Fresh [e]) (hv : reading? s.graph s.scope e = some v)
    (hinfer : s.infer e = s.pronounce e.note v) :
    s.Attains [.infer e] (rulings s.graph s.scope [e]) := by
  refine ⟨s.calls, fun _ _ => rfl, fun rest => ?_⟩
  have hstep : s.step (.infer e) = .ok (s.pronounce e.note v) := congrArg Except.ok hinfer
  rw [rulings_singleton hv, ← run_pronounce hfresh rfl rfl v rest]
  exact run_cons_ok hstep

end State

/-- A call has gathered some types, and as many are missing as the number says. -/
structure Gathering.Holds (call : Gathering) (types : List TypeId) (missing : Nat) : Prop where
  slots : call.slots = types.map some ++ List.replicate missing none
  missing : call.missing = missing

namespace Gathering

variable {call : Gathering} {types : List TypeId} {missing : Nat}

theorem holds_start (node : Mark) (arguments : List Expr) :
    (start node arguments).Holds [] (arguments.length + 1) := ⟨rfl, rfl⟩

theorem Holds.fill (h : call.Holds types (missing + 1)) (t : TypeId) :
    (call.fill types.length t).Holds (types ++ [t]) missing where
  slots := by
    simp [Gathering.fill, h.slots, List.replicate_succ]
  missing := by
    simp [Gathering.fill, h.missing]

theorem Holds.types_eq (h : call.Holds types 0) : call.slots.filterMap id = types := by
  simp [h.slots]

end Gathering

/-- Inferring the expression leads to its verdict at once, wherever the graph tells it. -/
def Immediate (e : Expr) : Prop :=
  ∀ (s : State) (v : Verdict), s.Fresh e.postorder → reading? s.graph s.scope e = some v →
    s.Attains [.infer e] (rulings s.graph s.scope e.postorder)

namespace State

variable {s : State} {call : Nat} {gathering : Gathering} {types us : List TypeId}

theorem Attains.deliver {t : TypeId} {R : List Ruling} (h : s.Attains [.infer e] R)
    (hcall : s.calls[call]? = some gathering) (slot : Nat)
    (ht : ∀ calls, ∃ symbol, (s.learn R calls).typeOf? e.id = some symbol ∧
      s.graph.bound? symbol = some t) :
    ∃ calls : Array Gathering, (∀ i < call, calls[i]? = s.calls[i]?) ∧
      calls[call]? = some (gathering.fill slot t) ∧
      ∀ rest, s.run (.infer e :: .pend e.id (.resolve e.span (.deliver call slot)) :: rest) =
        if (gathering.fill slot t).missing = 0 then
          let next := (s.learn R calls).resolve (gathering.fill slot t)
            ((gathering.fill slot t).slots.filterMap id)
          next.2.run (next.1 ++ rest)
        else (s.learn R calls).run rest := by
  obtain ⟨calls, hcalls, hrun⟩ := h
  obtain ⟨hlt, -⟩ := Array.getElem?_eq_some_iff.mp hcall
  have hcall' : calls[call]? = some gathering := (hcalls call hlt).trans hcall
  obtain ⟨hlt', -⟩ := Array.getElem?_eq_some_iff.mp hcall'
  refine ⟨calls.setIfInBounds call (gathering.fill slot t), ?_, ?_, ?_⟩
  · intro i hi
    rw [Array.getElem?_setIfInBounds_ne (by omega), hcalls i (by omega)]
  · exact Array.getElem?_setIfInBounds_self_of_lt hlt'
  · intro rest
    obtain ⟨symbol, hsymbol, hbound⟩ := ht calls
    have hdeliver := deliver_eq (s := s.learn R calls) hcall' slot t
    refine (hrun _).trans ((run_pend_resolve hsymbol hbound rest).trans ?_)
    rw [onBound, hdeliver]
    split <;> rfl

theorem run_gather {es : List Expr} (hes : ∀ e ∈ es, Immediate e) (hfresh : s.Fresh (postorderOf es))
    (hcall : s.calls[call]? = some gathering) (hholds : gathering.Holds types es.length)
    (hus : readings? s.graph s.scope es = some us) (hne : es ≠ []) :
    ∃ calls : Array Gathering, (∀ i < call, calls[i]? = s.calls[i]?) ∧
      ∀ rest, s.run (gather call types.length es ++ rest) =
        let next := (s.learn (rulings s.graph s.scope (postorderOf es)) calls).pronounce
          gathering.call (.ofCall s.graph gathering.names (types ++ us))
        next.2.run (next.1 ++ rest) := by
  induction es generalizing s gathering types us with
  | nil => exact absurd rfl hne
  | cons e es ih =>
    obtain ⟨t, ht, hus⟩ := Option.bind_eq_some_iff.mp hus
    obtain ⟨us', hus', rfl⟩ := Option.map_eq_some_iff.mp hus
    obtain ⟨u, hu, hbound⟩ := typeIn?_eq_some.mp ht
    have hattains := hes e List.mem_cons_self s u hfresh.left hu
    obtain ⟨calls, hcalls, hfiled, hrun⟩ := hattains.deliver hcall types.length
      fun calls => ⟨u.symbol, typeOf?_learn_self hu calls, hbound⟩
    have hfill := hholds.fill t
    cases es with
    | nil =>
      refine ⟨calls, hcalls, fun rest => ?_⟩
      cases hus'
      have hmissing : (gathering.fill types.length t).missing = 0 := hfill.missing
      refine (hrun rest).trans ?_
      rw [if_pos hmissing, resolve_eq_pronounce, hfill.types_eq, postorderOf, postorderOf,
        List.append_nil]
      rfl
    | cons e' es =>
      have hmissing : (gathering.fill types.length t).missing ≠ 0 := by
        rw [hfill.missing]
        exact Nat.succ_ne_zero _
      obtain ⟨calls', hcalls', hrun'⟩ := ih (s := s.learn (rulings s.graph s.scope e.postorder) calls)
        (fun x hx => hes x (List.mem_cons_of_mem e hx)) (hfresh.right calls) hfiled hfill hus'
        (List.cons_ne_nil _ _)
      refine ⟨calls', fun i hi => (hcalls' i hi).trans (hcalls i hi), fun rest => ?_⟩
      refine (hrun _).trans ?_
      rw [if_neg hmissing]
      have hlength : types.length + 1 = (types ++ [t]).length := by simp
      rw [hlength]
      refine (hrun' rest).trans ?_
      rw [learn_learn, List.append_assoc, rulings_postorderOf e]
      rfl

end State

/-- An expression that can be read off the graph is inferred in one go. -/
theorem immediate (e : Expr) : Immediate e := by
  induction e using Tree.operands_induction with | h e ih => ?_
  cases e with
  | selection note target member =>
    intro s v hfresh hv
    have hread := hv
    rw [reading?_selection] at hread
    obtain ⟨t, ht, rfl⟩ := Option.map_eq_some_iff.mp hread
    obtain ⟨u, hu, hbound⟩ := typeIn?_eq_some.mp ht
    rw [Node.postorder] at hfresh ⊢
    obtain ⟨calls, hcalls, hrun⟩ := ih target List.mem_cons_self s u hfresh.left hu
    refine ⟨calls, hcalls, fun rest => ?_⟩
    have hstart : s.step (.infer (.selection note target member)) = .ok ([.infer target,
        .pend target.id (.resolve target.span (.select note member))], s) := rfl
    rw [← State.run_pronounce_last hfresh hv calls rest]
    refine (State.run_cons_ok hstart).trans ((hrun _).trans ?_)
    refine (State.run_pend_resolve (State.typeOf?_learn_self hu calls) hbound rest).trans ?_
    rw [State.onBound, State.select_eq_pronounce]
    rfl
  | call note target arguments =>
    intro s v hfresh hv
    have hread := hv
    rw [reading?_call] at hread
    obtain ⟨us, hus, rfl⟩ := Option.map_eq_some_iff.mp hread
    rw [Node.postorder] at hfresh ⊢
    let s₀ : State := { s with calls := s.calls.push (.start note arguments) }
    have hfresh₀ : s₀.Fresh (postorderOf (target :: arguments)) := hfresh.left.congr rfl rfl
    have hcall : s₀.calls[s.calls.size]? = some (.start note arguments) := Array.getElem?_push_size
    obtain ⟨calls, hcalls, hrun⟩ := State.run_gather ih hfresh₀ hcall
      (Gathering.holds_start note arguments) hus (List.cons_ne_nil _ _)
    refine ⟨calls, ?_, fun rest => ?_⟩
    · intro i hi
      rw [hcalls i hi, Array.getElem?_push_lt hi, Array.getElem?_eq_getElem hi]
    · rw [← State.run_pronounce_last hfresh hv calls rest]
      exact (State.run_cons_ok rfl).trans (hrun rest)
  | namedArgument note name value =>
    intro s v hfresh hv
    obtain ⟨u, hu, rfl⟩ := Option.map_eq_some_iff.mp hv
    rw [Node.postorder] at hfresh ⊢
    obtain ⟨calls, hcalls, hrun⟩ := ih value List.mem_cons_self s u hfresh.left hu
    refine ⟨calls, hcalls, fun rest => ?_⟩
    let s₁ := s.learn (rulings s.graph s.scope value.postorder) calls
    have hpend : s₁.step (.pend value.id (.copy note.id)) =
        .ok ([.typed (.copy note.id) u.symbol], s₁) := by
      simp [State.step, State.pend, s₁, State.typeOf?_learn_self hu calls]
    have htyped : s₁.step (.typed (.copy note.id) u.symbol) =
        .ok (s₁.pronounce note ⟨u.symbol, none⟩) := rfl
    have hstart : s.step (.infer (.namedArgument note name value)) =
        .ok ([.infer value, .pend value.id (.copy note.id)], s) := rfl
    rw [← State.run_pronounce_last hfresh hv calls rest]
    refine (State.run_cons_ok hstart).trans ((hrun _).trans ?_)
    exact (State.run_cons_ok hpend).trans (State.run_cons_ok htyped)
  | ident note name => exact fun _ _ hfresh hv => State.attains_infer_of_pronounce hfresh hv (by
    cases hv
    exact State.infer_ident note name)
  | _ => exact fun _ _ hfresh hv => State.attains_infer_of_pronounce hfresh hv (by cases hv; rfl)

/-- An expression that can be read off the graph is inferred with success, and that adds the symbols
and the faults that were read off. -/
theorem infer_eq_learn {s : State} (hfresh : s.Fresh e.postorder)
    (hv : reading? s.graph s.scope e = some v) :
    ∃ calls, infer s e = (s.learn (rulings s.graph s.scope e.postorder) calls, .ok ()) := by
  obtain ⟨calls, -, hrun⟩ := immediate e s v hfresh hv
  refine ⟨calls, ?_⟩
  rw [infer, ← List.append_nil [Task.infer e], hrun, State.run]

end Inference
end Binder
