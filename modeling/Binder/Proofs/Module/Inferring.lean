import Binder.Proofs.Inference.Wakeup
import Binder.Proofs.Module.Filling

/-! Inferring the types of a module. Values are unified with the types that are ascribed to them and
related to their initialisers; fallbacks are compared with the types of their parameters. No pass
fails, since each node is inferred at most once. -/
namespace Binder

open Binder.Tree (Expr Mark NodeId)
open Inference (Task)

variable {d : Expr}

/-- The tasks of inferring a value and relating it to its initialiser. -/
def ModuleValue.tasks (v : ModuleValue) : List Task :=
  match v.definition.value with
  | some e => [.infer e, .pend e.id (.initialise v.member.type e.span)]
  | none => []

/-- The tasks of inferring a fallback and comparing it with the type that it should have. -/
def fallbackTasks (f : Expr × SymbolId) : List Task :=
  [.infer f.1, .pend f.1.id (.resolve f.1.span (.compare f.2 f.1.span))]

/-- Some tasks owe nothing to a call, and symbols only to some nodes. -/
structure Owing (ts : List Task) (nodes : List Expr) : Prop where
  slots : ∀ call slot, Inference.owed (.toSlot call slot) ts = 0
  nodes : ∀ n, Inference.owed (.toNode n) ts ≤ Tree.count n nodes

namespace Owing

theorem nil : Owing [] [] := ⟨fun _ _ => rfl, fun _ => Nat.zero_le _⟩

theorem infer (e : Expr) : Owing [.infer e] e.preorder where
  slots call slot := by
    rw [Inference.owed_cons, Inference.owed_nil, Inference.Task.charge,
      Inference.inferCharge_eq_zero fun _ => rfl]
  nodes n := by
    rw [Inference.owed_cons, Inference.owed_nil, Nat.add_zero]
    exact Inference.inferCharge_le_count n e

theorem fallback (f : Expr × SymbolId) : Owing (fallbackTasks f) f.1.preorder :=
  ⟨(infer f.1).slots, (infer f.1).nodes⟩

theorem value (v : ModuleValue) : Owing v.tasks (Tree.preorderOption v.definition.value) := by
  unfold ModuleValue.tasks
  cases v.definition.value with
  | none => exact nil
  | some e => exact ⟨(infer e).slots, (infer e).nodes⟩

theorem append {ts us : List Task} {xs ys : List Expr} (h : Owing ts xs) (h' : Owing us ys) :
    Owing (ts ++ us) (xs ++ ys) where
  slots call slot := by rw [Inference.owed_append, h.slots, h'.slots]
  nodes n := by
    rw [Inference.owed_append, Tree.count_append]
    exact Nat.add_le_add (h.nodes n) (h'.nodes n)

theorem flatMap {α : Type} {tasks : α → List Task} {nodes : α → List Expr}
    (h : ∀ a, Owing (tasks a) (nodes a)) (l : List α) : Owing (l.flatMap tasks) (l.flatMap nodes) := by
  induction l with
  | nil => exact nil
  | cons a l ih => exact (h a).append ih

end Owing

namespace Context

variable {V : List SymbolId} {c c' c'' : Context} {s : Inference.State} {x : SymbolId}
  {nodes rest bindings : List Expr} {v : ModuleValue} {ts : List Task}

/-- What inference leaves alone and what it only adds to. -/
structure Infers (c c' : Context) : Prop where
  values : c'.values = c.values
  declared : c'.declared = c.declared
  expressions : c'.expressions = c.expressions
  root : c'.root = c.root
  constants : c'.constants = c.constants
  scope : c'.inference.scope = c.inference.scope
  graph : c.graph.Grows c'.graph
  names : c.graph.names <+: c'.graph.names
  fallbacks : c.fallbacks <+: c'.fallbacks
  diagnostics : c.diagnostics <+: c'.diagnostics
  reported : c.inference.diagnostics <+: c'.inference.diagnostics

namespace Infers

theorem refl (c : Context) : Infers c c :=
  ⟨rfl, rfl, rfl, rfl, rfl, rfl, .refl _, List.prefix_rfl, List.prefix_rfl, List.prefix_rfl,
    List.prefix_rfl⟩

theorem trans (h : Infers c c') (h' : Infers c' c'') : Infers c c'' where
  values := h'.values.trans h.values
  declared := h'.declared.trans h.declared
  expressions := h'.expressions.trans h.expressions
  root := h'.root.trans h.root
  constants := h'.constants.trans h.constants
  scope := h'.scope.trans h.scope
  graph := h.graph.trans h'.graph
  names := h.names.trans h'.names
  fallbacks := h.fallbacks.trans h'.fallbacks
  diagnostics := h.diagnostics.trans h'.diagnostics
  reported := h.reported.trans h'.reported

theorem clean (h : Infers c c') (hclean : c'.diagnostics = []) : c.diagnostics = [] :=
  List.prefix_nil.mp (hclean ▸ h.diagnostics)

theorem pledges {y : Expr} (h : Infers c c') (hp : c.Pledges y d) : c'.Pledges y d := by
  obtain ⟨f, t, hf, hd⟩ := hp
  exact ⟨f, t, h.fallbacks.subset hf, hd⟩

theorem of_advances (h : c.inference.Advances s) : Infers c { c with inference := s } :=
  ⟨rfl, rfl, rfl, rfl, rfl, h.scope, h.grows, h.names ▸ List.prefix_rfl, List.prefix_rfl,
    List.prefix_rfl, h.diagnostics⟩

end Infers

/-- Nothing but the state of inference has changed. -/
def Progresses (c c' : Context) : Prop :=
  ∃ s, c.inference.Advances s ∧ c' = { c with inference := s }

theorem Progresses.infers (h : Progresses c c') : Infers c c' := by
  obtain ⟨s, hs, rfl⟩ := h
  exact .of_advances hs

theorem Resolves.infers (h : Resolves V c c') : Infers c c' where
  values := h.unchanged Context.values fun _ => rfl
  declared := h.unchanged Context.declared fun _ => rfl
  expressions := h.unchanged Context.expressions fun _ => rfl
  root := h.unchanged Context.root fun _ => rfl
  constants := h.unchanged Context.constants fun _ => rfl
  scope := by rw [h.inference]
  graph := h.graph
  names := h.names
  fallbacks := h.fallbacks
  diagnostics := h.diagnostics
  reported := by rw [h.inference]

/-- The inference of a module is under way: `rest` are the nodes that are still to be inferred. -/
structure Inferring (V : List SymbolId) (rest : List Expr) (c : Context) : Prop where
  ready : c.inference.Ready V (c.diagnostics = []) []
  once : ∀ n, c.inference.tally n + c.pledged n + Tree.count n rest ≤ 1

theorem Inferring.budget (h : c.Inferring V (nodes ++ rest)) (n : NodeId) :
    c.inference.tally n + c.pledged n + Tree.count n nodes + Tree.count n rest ≤ 1 := by
  have honce := h.once n
  rw [Tree.count_append] at honce
  omega

theorem Inferring.begin (h : c.Inferring V (nodes ++ rest))
    (hvalid : ∀ task ∈ ts, task.Valid V (c.diagnostics = []) c.inference) (howing : Owing ts nodes) :
    c.inference.Ready V (c.diagnostics = []) ts := by
  refine h.ready.begin hvalid howing.slots fun n => ?_
  have hle := h.budget n
  have hn := howing.nodes n
  omega

theorem Inferring.run (h : c.Inferring V (nodes ++ rest))
    (hvalid : ∀ task ∈ ts, task.Valid V (c.diagnostics = []) c.inference) (howing : Owing ts nodes) :
    ∃ s, c.inference.run ts = (s, .ok ()) ∧ c.inference.Advances s ∧
      Inferring V rest { c with inference := s } := by
  obtain ⟨s, hrun, hdone⟩ := (h.begin hvalid howing).run
  refine ⟨s, hrun, hdone.advances, hdone.ready, fun n => ?_⟩
  have hle := h.budget n
  have hn := howing.nodes n
  have htally := hdone.tally n
  have hpledged : pledged { c with inference := s } n = c.pledged n := rfl
  rw [hpledged]
  show s.tally n + c.pledged n + Tree.count n rest ≤ 1
  omega

theorem Known.advances (h : c.Known V x) (hs : c.inference.Advances s) :
    Known V { c with inference := s } x := by
  obtain ⟨hV, hsource, hne⟩ := h
  exact ⟨hV, hsource.imp_left hs.grows.isBound, hne⟩

theorem Expecting.advances (h : c.Expecting V) (hs : c.inference.Advances s) :
    Expecting V { c with inference := s } := fun p hp => (h p hp).advances hs

theorem Resolvable.inferred (h : c.Resolvable V []) (hs : s.Ready V (c.diagnostics = []) [])
    (hadvances : c.inference.Advances s) : Resolvable V [] { c with inference := s } := by
  have hdefs : ∀ {t : TypeId}, s.graph.def? t = c.graph.def? t := fun {t} =>
    congrArg (·[t.index]?) hadvances.types
  constructor
  · constructor
    · constructor
      · apply hs.tidy.graph.mono
        rintro x ⟨hbound, hV, hne⟩
        exact ⟨hV, .inl hbound, hne⟩
      · refine ⟨hs.tidy.members, fun w hw => (hs.tidy.blocked w hw).1, ?_⟩
        by_contra hne
        cases hs.alert.settling hne
      · exact h.forest
      · intro i b hb
        obtain ⟨hkind, hV, hown, hsymbol⟩ := h.builder hb
        exact ⟨hkind, hV, hown, hadvances.grows.hasSymbol hsymbol⟩
      · exact h.distinct
      · intro i b x hb hx
        exact (h.uses hb hx).advances hadvances
      · exact h.offered
      · exact fun hd => h.kept (hdefs ▸ hd)
      · intro i b hb
        refine h.laid_of_grows hb hadvances.grows (hadvances.names ▸ List.prefix_rfl)
          (fun hx => ⟨_, hx, rfl, rfl⟩) fun hnone => ?_
        obtain ⟨r, hr, -⟩ := (h.open_iff hb).mp hnone
        cases hr
      · exact fun hd => h.plain (hdefs ▸ hd)
    · exact h.nodup
    · exact h.outermost
    · intro i b hb
      have hopen := h.open_iff hb
      constructor
      · intro hnone
        apply hopen.mp
        by_contra hbound
        obtain ⟨t, ht⟩ := Option.ne_none_iff_exists'.mp hbound
        have hlater := hadvances.grows.bound ht
        exact absurd (hlater.symm.trans hnone) (by simp)
      · rintro ⟨r, hr, -⟩
        cases hr
  · intro name entry hfind
    exact (h.scope hfind).advances hadvances

/-- The types of a module are built, and some of its values are inferred. -/
structure Valuing (V : List SymbolId) (rest : List Expr) (c : Context) : Prop
    extends c.Inferring V rest where
  resolvable : c.Resolvable V []
  expecting : c.Expecting V

theorem Valuing.initialise (h : c.Valuing V (Tree.preorderOption v.definition.value ++ rest))
    (hv : v.member.type ∈ V) : c.inference.Ready V (c.diagnostics = []) v.tasks ∧
    ∃ s, c.inference.run v.tasks = (s, .ok ()) ∧ c.inference.Advances s ∧
      Valuing V rest { c with inference := s } := by
  have hvalid : ∀ task ∈ v.tasks, task.Valid V (c.diagnostics = []) c.inference := by
    unfold ModuleValue.tasks
    cases v.definition.value with
    | none => exact nofun
    | some e => simpa [Task.Valid, Inference.WhenTyped.Valid] using hv
  obtain ⟨s, hrun, hadvances, hinferring⟩ := h.toInferring.run hvalid (.value v)
  refine ⟨h.toInferring.begin hvalid (.value v), s, hrun, hadvances, hinferring,
    h.resolvable.inferred hinferring.ready hadvances, ?_⟩
  exact h.expecting.advances hadvances

theorem Valuing.resolved (h : c.Valuing V (nodes ++ rest))
    (hr : Resolved V [] nodes c c') : c'.Valuing V rest := by
  have hinference := hr.resolves.inference
  have hsettled := hr.resolvable.toStanding.settled
  have hready : c'.inference.Ready V (c'.diagnostics = []) [] := by
    rw [hinference]
    exact h.ready.setGraph hr.resolves.graph hsettled hr.resolves.values hr.resolves.clean
  constructor
  · constructor
    · exact hready
    · intro n
      have honce := h.once n
      have hcharge := hr.charge n
      have htally : c'.inference.tally n = c.inference.tally n := by rw [hinference]; rfl
      rw [Tree.count_append] at honce
      omega
  · exact hr.resolvable
  · exact hr.expecting h.expecting

theorem Valuing.unify (h : c.Valuing V rest) {y : SymbolId} (hx : x ∈ V) (hy : c.Known V y) :
    ∃ unified s₁ s, c.inference.unify x y = .ok (unified, s₁) ∧ s₁.Advances s ∧
      Inference.unify c.inference x y = (s, .ok unified) ∧ c.inference.Advances s ∧
      Valuing V rest { c with inference := s } := by
  have hbound : c.inference.graph.isBound y := h.resolvable.toStanding.isBound hy
  have hsound : c.inference.Sound V (c.diagnostics = []) y := ⟨.inr hbound, fun _ => hy.2.2⟩
  obtain ⟨unified, s₁, s, hu, hlater, hok, hdone⟩ :=
    h.ready.unify (h.ready.tidy.sound_value hx) hsound
  refine ⟨unified, s₁, s, hu, hlater, hok, hdone.advances, ?_⟩
  constructor
  · constructor
    · exact hdone.ready
    · intro n
      have honce := h.once n
      have htally := hdone.tally n
      rw [Inference.owed_nil, Nat.zero_add] at htally
      show s.tally n + c.pledged n + Tree.count n rest ≤ 1
      omega
  · exact h.resolvable.inferred hdone.ready hdone.advances
  · exact h.expecting.advances hdone.advances

/-- Whoever looks at a state before the first run finds nothing in it. -/
theorem Furnished.ready (h : c.Furnished bindings) :
    c.inference.Ready c.valueSymbols (c.diagnostics = []) [] := by
  have hsettled : c.inference.graph.Settled c.valueSymbols (c.diagnostics = []) :=
    h.resolvable.toStanding.settled
  have hunbound : ∀ x ∈ c.valueSymbols, c.inference.graph.bound? x = none := h.unbound
  have hinference := h.inference
  have hscope : c.inference.scope = c.rootScope := by
    rw [hinference]
    rfl
  have hempty : ∀ {call : Nat} {gathering : Inference.Gathering},
      c.inference.calls[call]? ≠ some gathering := by
    intro call gathering
    rw [hinference]
    simp [Inference.State.initial]
  constructor
  · refine
      { graph := hsettled
        members := by rw [hinference]; exact nofun
        disjoint := by rw [hinference]; exact List.Pairwise.nil
        uniform := by rw [hinference]; exact nofun
        scope := ?_
        typed := by rw [hinference]; exact nofun
        values := ?_
        waiting := by rw [hinference]; exact nofun
        blocked := by rw [hinference]; exact nofun
        slots := fun hcall => (hempty hcall).elim
        tasks := nofun }
    · intro name m hm
      rw [hscope] at hm
      rcases h.names hm with hvalue | hlt
      · exact ⟨.inl hvalue, fun _ _ herror => hsettled.error_notMem (herror ▸ hvalue)⟩
      · obtain ⟨-, hbound, hne⟩ := Prelude.bound_of_lt hlt
        exact ⟨.inr (hsettled.prelude.isBound hbound), fun _ _ => hne⟩
    · intro x hx t ht
      rw [hunbound x hx] at ht
      cases ht
  · rw [hinference]
    exact
      { slots := fun call slot => by simp [Inference.State.initial, Inference.State.held,
          Inference.State.vacant]
        missing := fun hcall => by simp [Inference.State.initial] at hcall
        once := fun n => Nat.zero_le 1 }
  · rw [hinference]
    exact ⟨nofun, fun hne => absurd rfl hne⟩

theorem Furnished.valuing (h : c.Furnished bindings)
    (honce : ∀ n, Tree.count n (Tree.preorderOf bindings) ≤ 1) :
    c.Valuing c.valueSymbols ((c.values.map ModuleValue.definition).flatMap Definition.nodes ++
      Tree.preorderOf c.expressions) where
  ready := h.ready
  once n := by
    have hcharge := h.charge n
    have hle := honce n
    have htally : c.inference.tally n = 0 := by
      rw [h.inference]
      rfl
    rw [Tree.count_append]
    omega
  resolvable := h.resolvable
  expecting := h.expecting

end Context

namespace Build

open Context

variable {V : List SymbolId} {c c' : Context} {rest : List Expr} {v : ModuleValue} {α : Type}
  {s : Inference.State}

theorem withInference_of_ok {f : Inference.State → Inference.Outcome α}
    {a : α} (h : f c.inference = (s, .ok a)) :
    withInference f c = .ok a { c with inference := s } := by
  rw [withInference, h]

/-- Works off some tasks. -/
def runs (ts : List Task) : Build Unit := withInference fun s => s.run ts

theorem runs_nil : runs [] = pure () := by
  funext c
  simp only [runs, withInference, Inference.State.run]
  rfl

theorem runs_append (ts us : List Task) : runs (ts ++ us) = (do runs ts; runs us) := by
  funext c
  simp only [runs, withInference, Inference.State.run_append]
  show _ = EStateM.bind (withInference fun s => s.run ts) _ c
  cases hrun : c.inference.run ts with
  | mk s outcome => cases outcome <;> simp only [EStateM.bind, withInference, hrun]

theorem forM_runs {f : α → Build Unit} {tasks : α → List Task}
    (hf : ∀ a, f a = runs (tasks a)) (l : List α) : l.forM f = runs (l.flatMap tasks) := by
  induction l with
  | nil => exact runs_nil.symm
  | cons a l ih =>
    rw [List.flatMap_cons, runs_append, ← hf, ← ih]
    rfl

theorem inferFallback_eq (f : Expr × SymbolId) : inferFallback f = runs (fallbackTasks f) :=
  (runs_append [.infer f.1] [.pend f.1.id (.resolve f.1.span (.compare f.2 f.1.span))]).symm

/-- Unifies a value with the type that is ascribed to it. -/
def ascribeBy {κ : Type} (r : Resolver κ) (v : ModuleValue) : Build Unit :=
  match v.definition.ascription with
  | some ascription => do
      let ascribed ← resolveTypeBy r r.outside none ascription
      let _ ← withInference fun s => Inference.unify s v.member.type ascribed
  | none => pure ()

/-- Infers the initialiser of a value and relates the value to it. -/
def initialise (v : ModuleValue) : Build Unit :=
  match v.definition.value with
  | some value => do
      withInference fun s => Inference.infer s value
      withInference fun s => Inference.pend s value.id (.initialise v.member.type value.span)
  | none => pure ()

theorem initialise_eq (v : ModuleValue) : initialise v = runs v.tasks := by
  unfold initialise ModuleValue.tasks
  cases v.definition.value with
  | none => exact runs_nil.symm
  | some e => exact (runs_append [.infer e] [.pend e.id (.initialise v.member.type e.span)]).symm

theorem inferValueBy_eq {κ : Type} (r : Resolver κ) (v : ModuleValue) :
    inferValueBy r v = (do ascribeBy r v; runs v.tasks) := by
  rw [← initialise_eq]
  unfold inferValueBy ascribeBy initialise
  cases v.definition.ascription <;> cases v.definition.value <;> simp only [bind_assoc, pure_bind]

/-- What is ascribed to a value, if anything is, is resolved and unified with the type of the value. -/
inductive Ascribed (V : List SymbolId) (rest : List Expr) (v : ModuleValue) (c : Context) :
    Context → Prop
  | bare : v.definition.ascription = none → c.Valuing V rest → Ascribed V rest v c c
  | ascribed {a : Expr} {x : SymbolId} {r : Context} {unified : Bool} {s : Inference.State} :
      v.definition.ascription = some a → resolveType none a c = .ok x r →
      Resolved V [] a.preorder c r → r.Known V x → r.Valuing V rest →
      Inference.unify r.inference v.member.type x = (s, .ok unified) → r.inference.Advances s →
      Valuing V rest { r with inference := s } → Ascribed V rest v c { r with inference := s }

theorem ascribe_ends (hv : v.member.type ∈ V)
    (h : c.Valuing V (Tree.preorderOption v.definition.ascription ++ rest)) :
    Ends (ascribeBy .live v) c fun _ c' => Ascribed V rest v c c' := by
  unfold ascribeBy
  cases ha : v.definition.ascription with
  | none =>
    rw [ha] at h
    exact Ends.pure (.bare ha h)
  | some a =>
    rw [ha] at h
    apply Ends.bind
    apply (resolveType_ends a none h.resolvable).keep.mono
    rintro x r ⟨hresolve, hresolved, hknown⟩
    have hvaluing := h.resolved hresolved
    obtain ⟨unified, -, s, -, -, hu, hadvances, hdone⟩ := hvaluing.unify hv hknown
    apply Ends.bind
    apply Ends.withInference hu
    exact Ends.pure (.ascribed ha hresolve hresolved hknown hvaluing hu hadvances hdone)

namespace Ascribed

theorem valuing (h : Ascribed V rest v c c') : c'.Valuing V rest := by
  cases h with
  | bare _ hvaluing => exact hvaluing
  | ascribed _ _ _ _ _ _ _ hvaluing => exact hvaluing

theorem infers (h : Ascribed V rest v c c') : Infers c c' := by
  cases h with
  | bare => exact .refl c
  | ascribed _ _ hresolved _ _ _ hadvances _ =>
    exact hresolved.resolves.infers.trans (.of_advances hadvances)

theorem pledges (h : Ascribed V rest v c c') (hclean : c'.diagnostics = []) {x : Expr}
    (hx : x ∈ Tree.preorderOption v.definition.ascription) (hd : d ∈ x.defaults) : c'.Pledges x d := by
  cases h with
  | bare ha =>
    rw [ha] at hx
    cases hx
  | ascribed ha _ hresolved _ _ _ hadvances _ =>
    rw [ha] at hx
    exact (Infers.of_advances hadvances).pledges (hresolved.defaults hclean x hx d hd)

end Ascribed

/-- A value has had its turn: after its ascription, its initialiser is inferred. -/
structure Served (V : List SymbolId) (rest : List Expr) (v : ModuleValue) (c b : Context)
    (s : Inference.State) : Prop where
  ascribed : Ascribed V (Tree.preorderOption v.definition.value ++ rest) v c b
  ready : b.inference.Ready V (b.diagnostics = []) v.tasks
  run : b.inference.run v.tasks = (s, .ok ())
  advances : b.inference.Advances s
  valuing : Valuing V rest { b with inference := s }

theorem inferValue_ends (hv : v.member.type ∈ V)
    (h : c.Valuing V (v.definition.nodes ++ rest)) :
    Ends (inferValue v) c fun _ c' => ∃ b s, Served V rest v c b s ∧
      c' = { b with inference := s } := by
  rw [Definition.nodes, List.append_assoc] at h
  rw [inferValue, inferValueBy_eq]
  apply Ends.bind
  apply (ascribe_ends hv h).mono
  rintro _ b hb
  obtain ⟨hready, s, hrun, hadvances, hvaluing⟩ := hb.valuing.initialise hv
  exact Ends.withInference hrun ⟨b, s, ⟨hb, hready, hrun, hadvances, hvaluing⟩, rfl⟩

theorem Served.infers {b : Context} (h : Served V rest v c b s) :
    Infers c { b with inference := s } := h.ascribed.infers.trans (.of_advances h.advances)

/-- What is kept at the turn of each value holds once all values are inferred. -/
theorem forM_inferValue_ends {I : List ModuleValue → Context → Prop} (l : List ModuleValue)
    (hV : ∀ v ∈ l, v.member.type ∈ V)
    (h : c.Valuing V ((l.map ModuleValue.definition).flatMap Definition.nodes ++ rest))
    (hstart : I [] c)
    (hstep : ∀ {done v c b s rest}, v ∈ l → Served V rest v c b s → I done c →
      I (done ++ [v]) { b with inference := s }) :
    Ends (l.forM inferValue) c fun _ c' => c'.Valuing V rest ∧ I l c' := by
  refine Ends.forM_split (f := inferValue) (I := fun done left c' =>
    c'.Valuing V ((left.map ModuleValue.definition).flatMap Definition.nodes ++ rest) ∧ I done c') l ?_
    ⟨h, hstart⟩
  · rintro done v left hl c₁ ⟨hvaluing, hI⟩
    have hv : v ∈ l := by simp [← hl]
    rw [List.map_cons, List.flatMap_cons, List.append_assoc] at hvaluing
    apply (inferValue_ends (hV v hv) hvaluing).mono
    rintro _ _ ⟨b, s, hserved, rfl⟩
    exact ⟨hserved.valuing, hstep hv hserved hI⟩

theorem forM_inferValue_infers (l : List ModuleValue) (hV : ∀ v ∈ l, v.member.type ∈ V)
    (h : c.Valuing V ((l.map ModuleValue.definition).flatMap Definition.nodes ++ rest)) :
    Ends (l.forM inferValue) c fun _ c' => c'.Valuing V rest ∧ Infers c c' ∧
      (c'.diagnostics = [] → ∀ v ∈ l, ∀ x ∈ Tree.preorderOption v.definition.ascription,
        ∀ d ∈ x.defaults, c'.Pledges x d) := by
  refine forM_inferValue_ends (I := fun done c' => Infers c c' ∧ (c'.diagnostics = [] →
    ∀ v ∈ done, ∀ x ∈ Tree.preorderOption v.definition.ascription, ∀ d ∈ x.defaults, c'.Pledges x d))
    l hV h ⟨.refl c, fun _ => nofun⟩ ?_
  rintro done v c₁ b s _ _ hserved ⟨hinfers, hpledges⟩
  have hlast : Infers b { b with inference := s } := .of_advances hserved.advances
  refine ⟨hinfers.trans hserved.infers, ?_⟩
  intro hclean w hw x hx d hd
  rcases List.mem_append.mp hw with hw | hw
  · exact hserved.infers.pledges (hpledges (hserved.infers.clean hclean) w hw x hx d hd)
  · rw [List.mem_singleton.mp hw] at hx
    exact hlast.pledges (hserved.ascribed.pledges (hlast.clean hclean) hx hd)

end Build
end Binder
