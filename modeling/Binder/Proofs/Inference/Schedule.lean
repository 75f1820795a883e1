import Binder.Proofs.Inference.Agreement

/-! When an expression is inferred. Symbols are unified before and after that, and in the end it makes no
difference where among them the expression came: the nodes have the same symbols, the unifications
the same answers, the symbols the same types, and the same is reported. Calls are the exception.
Their signatures are chosen as soon as the types of target and arguments are there, so nothing
that types are made of may be bound only later. -/
namespace Binder.Inference

open Binder.Tree (Expr NodeId)

/-- Unifies pairs of symbols after one another; the answers tell which of them could be unified. -/
def unifyAll (s : State) : List (SymbolId × SymbolId) → Outcome (List Bool)
  | [] => (s, .ok [])
  | (a, b) :: rest =>
      match Inference.unify s a b with
      | (s, .ok unified) =>
          let (s, outcome) := unifyAll s rest
          (s, outcome.map (unified :: ·))
      | (s, .error e) => (s, .error e)

/-- Infers an expression after some unifications and before others. -/
def inferAmid (s : State) (e : Expr) (before after : List (SymbolId × SymbolId)) :
    Outcome (List Bool) :=
  match unifyAll s before with
  | (s, .ok first) =>
      match Inference.infer s e with
      | (s, .ok _) =>
          let (s, outcome) := unifyAll s after
          (s, outcome.map (first ++ ·))
      | (s, .error e) => (s, .error e)
  | (s, .error e) => (s, .error e)

variable {E : List Expr} {g G : TypeGraph} {scope : Scope Declaration} {s s' s₁ t t' t₁ : State}
  {a b : SymbolId} {unified : Bool} {pairs before after : List (SymbolId × SymbolId)}
  {results rest first last : List Bool}

theorem unifyAll_cons_iff : unifyAll s ((a, b) :: pairs) = (s', .ok results) ↔
    ∃ unified s₁ rest, Inference.unify s a b = (s₁, .ok unified) ∧
      unifyAll s₁ pairs = (s', .ok rest) ∧ results = unified :: rest := by
  constructor
  · intro h
    unfold unifyAll at h
    split at h
    next s₁ unified hu =>
      obtain ⟨hs', houtcome⟩ := Prod.mk.inj h
      cases hrest : (unifyAll s₁ pairs).2 with
      | error e =>
        rw [hrest] at houtcome
        cases houtcome
      | ok rest =>
        rw [hrest] at houtcome
        cases houtcome
        exact ⟨unified, s₁, rest, hu, Prod.ext hs' hrest, rfl⟩
    next => cases h
  · rintro ⟨unified, s₁, rest, hu, hrest, rfl⟩
    simp only [unifyAll, hu, hrest]
    rfl

theorem unifyAll_append_ok (h : unifyAll s (before ++ after) = (s', .ok results)) :
    ∃ s₁ first last, unifyAll s before = (s₁, .ok first) ∧ unifyAll s₁ after = (s', .ok last) ∧
      results = first ++ last := by
  induction before generalizing s results with
  | nil => exact ⟨s, [], results, rfl, h, rfl⟩
  | cons pair before ih =>
    obtain ⟨unified, s₁, rest, hu, hrest, rfl⟩ := unifyAll_cons_iff.mp h
    obtain ⟨s₂, first, last, hfirst, hlast, rfl⟩ := ih hrest
    exact ⟨s₂, unified :: first, last, unifyAll_cons_iff.mpr ⟨_, _, _, hu, hfirst, rfl⟩, hlast, rfl⟩

namespace State

theorem advances_run {ts : List Task} (h : s.run ts = (s', .ok ())) : s.Advances s' := by
  apply run_keeps (P := fun s₁ _ => s.Advances s₁) _ s ts (.refl s) h
  intro s₁ s₂ task rest new hs₁ hs
  exact hs₁.trans (advances_step hs)

end State

theorem grows_unify (h : Inference.unify s a b = (s', .ok unified)) : s.graph.Grows s'.graph := by
  obtain ⟨s₁, hu, hrun⟩ := State.exists_of_unify_ok h
  exact ((State.advances_unify hu).trans (State.advances_run hrun)).grows

theorem grows_unifyAll (h : unifyAll s pairs = (s', .ok results)) : s.graph.Grows s'.graph := by
  induction pairs generalizing s results with
  | nil =>
    cases h
    exact .refl _
  | cons pair pairs ih =>
    obtain ⟨unified, s₁, rest, hu, hrest, rfl⟩ := unifyAll_cons_iff.mp h
    exact (grows_unify hu).trans (ih hrest)

/-- A graph on the way from one graph to another, on which no types are added. -/
structure Between (g G g' : TypeGraph) : Prop where
  types : g'.types = g.types
  sources : ∀ {x t}, g'.bound? x = some t → ∃ y, g.bound? y = some t
  lower : g.Grows g'
  upper : g'.Grows G

theorem Between.firm {g' : TypeGraph} (h : Between g G g')
    (hends : ∀ {x}, g.Constituent x → G.bound? x = g.bound? x) : g.Firm g' where
  types := h.types
  sources := h.sources
  constituents := by
    intro x hx
    cases hb : g.bound? x with
    | some t => exact h.lower.bound hb
    | none =>
      cases hb' : g'.bound? x with
      | none => rfl
      | some t =>
        have hend := h.upper.bound hb'
        rw [hends hx, hb] at hend
        cases hend

theorem groups_eq {l l' : Groups} (hgroups : l.groups = l'.groups) (hl : l.settled = [])
    (hl' : l'.settled = []) : l = l' := by
  cases l
  cases l'
  simp_all

/-- Two states that differ at most in what has been inferred. -/
structure Level (s t : State) : Prop where
  graph : s.graph = t.graph
  groups : s.groups = t.groups
  scope : s.scope = t.scope

namespace Level

theorem unify_state (h : Level s t) (hu : t.unify a b = .ok (unified, t₁)) :
    ∃ s₁, s.unify a b = .ok (unified, s₁) ∧ Level s₁ t₁ := by
  obtain ⟨graph, groups, hgroups, rfl⟩ := State.unify_eq hu
  refine ⟨{ s with graph := graph, groups := groups }, ?_, rfl, rfl, h.scope⟩
  rw [State.unify, h.graph, h.groups, hgroups]

theorem unify (h : Level s t) (hs : s.Solo E []) (ht : t.Solo [] [])
    (hu : t.unify a b = .ok (unified, t₁)) (hsteady : Verdict.Steady E t.graph t₁.graph) :
    ∃ s' t', Inference.unify s a b = (s', .ok unified) ∧ Inference.unify t a b = (t', .ok unified) ∧
      s'.Solo E [] ∧ t'.Solo [] [] ∧ t'.graph = t₁.graph ∧ Level s' t' := by
  obtain ⟨s₁, hu', hl₁⟩ := h.unify_state hu
  have hsteady' : Verdict.Steady E s.graph s₁.graph := by
    rw [h.graph, hl₁.graph]
    exact hsteady
  obtain ⟨s', hs', hsolo, hspares⟩ := hs.unify hu' hsteady'
  obtain ⟨t', ht', hsolo', hspares'⟩ := ht.unify hu ⟨hsteady.ofMember, nofun⟩
  have hgroups : s'.groups.groups = t'.groups.groups := by
    rw [hspares.groups, hspares'.groups, hl₁.groups]
  refine ⟨s', t', hs', ht', hsolo, hsolo', hspares'.graph, ?_⟩
  constructor
  · rw [hspares.graph, hspares'.graph, hl₁.graph]
  · exact groups_eq hgroups hsolo.vigilant.settled_eq_nil hsolo'.vigilant.settled_eq_nil
  · rw [hspares.scope, hspares'.scope, hl₁.scope]

/-- So do unifications one after another, up to a graph that leaves alone what the types of the first
graph are made of. -/
theorem unifyAll (h : Level s t) (hs : s.Solo E []) (ht : t.Solo [] []) (hbetween : Between g G t.graph)
    (hends : ∀ {note target arguments}, .call note target arguments ∈ E →
      ∀ {x}, g.Constituent x → G.bound? x = g.bound? x)
    (hu : Inference.unifyAll t pairs = (t', .ok results)) (hG : t'.graph.Grows G) :
    ∃ s', Inference.unifyAll s pairs = (s', .ok results) ∧ s'.Solo E [] ∧ t'.Solo [] [] ∧
      Between g G t'.graph ∧ Level s' t' := by
  induction pairs generalizing s t results with
  | nil =>
    cases hu
    exact ⟨s, rfl, hs, ht, hbetween, h⟩
  | cons pair pairs ih =>
    obtain ⟨unified, t₂, rest, hunify, hrest, rfl⟩ := unifyAll_cons_iff.mp hu
    obtain ⟨t₁, hu₁, hrun⟩ := State.exists_of_unify_ok hunify
    obtain ⟨htypes, hsources⟩ := State.types_unify hu₁
    have hbetween₁ : Between g G t₁.graph := by
      constructor
      · rw [htypes, hbetween.types]
      · intro x type hx
        obtain ⟨y, hy⟩ := hsources hx
        exact hbetween.sources hy
      · exact hbetween.lower.trans (State.advances_unify hu₁).grows
      · exact (State.advances_run hrun).grows.trans ((grows_unifyAll hrest).trans hG)
    have hsteady : Verdict.Steady E t.graph t₁.graph :=
      steady_of_firm htypes fun hcall => ⟨hbetween.firm (hends hcall), hbetween₁.firm (hends hcall)⟩
    obtain ⟨s₂, t₂', hs₂, ht₂, hsolo, hsolo', hgraph, hlevel⟩ := h.unify hs ht hu₁ hsteady
    cases hunify.symm.trans ht₂
    obtain ⟨s', hs', hlast⟩ := ih hlevel hsolo hsolo' (hgraph ▸ hbetween₁) hrest
    exact ⟨s', unifyAll_cons_iff.mpr ⟨_, _, _, hs₂, hs', rfl⟩, hlast⟩

end Level

/-- Wherever an expression is inferred, the unifications run as they do without it. -/
theorem level_inferAmid {e : Expr} (hids : ∀ n, Tree.count n e.preorder ≤ 1)
    (hu : unifyAll (.initial g scope) (before ++ after) = (t, .ok results))
    (hends : ∀ {note target arguments}, .call note target arguments ∈ e.reached →
      ∀ {x}, g.Constituent x → t.graph.bound? x = g.bound? x) :
    ∃ s, inferAmid (.initial g scope) e before after = (s, .ok results) ∧ s.Solo e.reached [] ∧
      Level s t := by
  obtain ⟨t₁, first, last, hfirst, hlast, rfl⟩ := unifyAll_append_ok hu
  have hgrows := grows_unifyAll hlast
  have hbetween : Between g t.graph (State.initial g scope).graph :=
    ⟨rfl, fun hx => ⟨_, hx⟩, .refl g, grows_unifyAll hu⟩
  obtain ⟨-, -, -, hsolo₁, hbetween₁, -⟩ :=
    Level.unifyAll ⟨rfl, rfl, rfl⟩ (.initial g scope) (.initial g scope) hbetween nofun hfirst hgrows
  obtain ⟨s₁, hs₁, hsolo, hspares⟩ := hsolo₁.infer hids
  have hlevel : Level s₁ t₁ :=
    ⟨hspares.graph, groups_eq hspares.groups hsolo.vigilant.settled_eq_nil
      hsolo₁.vigilant.settled_eq_nil, hspares.scope⟩
  obtain ⟨s, hs, hsolo', -, -, hlevel'⟩ :=
    hlevel.unifyAll hsolo hsolo₁ hbetween₁ hends hlast (.refl _)
  refine ⟨s, ?_, hsolo', hlevel'⟩
  simp only [inferAmid, hfirst, hs₁, hs]
  rfl

/-- The expression may be inferred at any two places among the unifications. If it calls something, these
must not bind what types are made of. -/
theorem inferred_alike_anywhere {e : Expr} (hids : ∀ n, Tree.count n e.preorder ≤ 1)
    {pairs before after before' after' : List (SymbolId × SymbolId)}
    (hpairs : before ++ after = pairs) (hpairs' : before' ++ after' = pairs)
    (hunify : unifyAll (.initial g scope) pairs = (t, .ok results))
    (hfirm : ∀ note target arguments, .call note target arguments ∈ e.reached →
      ∀ x, g.Constituent x → t.graph.bound? x = g.bound? x) :
    ∃ s s', inferAmid (.initial g scope) e before after = (s, .ok results) ∧
      inferAmid (.initial g scope) e before' after' = (s', .ok results) ∧
      (∀ n, s.typeOf? n = s'.typeOf? n) ∧ s.graph = t.graph ∧ s'.graph = t.graph ∧
      (finish s).diagnostics.Perm (finish s').diagnostics := by
  subst hpairs
  obtain ⟨s, hs, hsolo, hlevel⟩ :=
    level_inferAmid hids hunify fun {_ _ _} hcall {x} => hfirm _ _ _ hcall x
  rw [← hpairs'] at hunify
  obtain ⟨s', hs', hsolo', hlevel'⟩ :=
    level_inferAmid hids hunify fun {_ _ _} hcall {x} => hfirm _ _ _ hcall x
  have hgraph : s.graph = s'.graph := hlevel.graph.trans hlevel'.graph.symm
  have hscope : s.scope = s'.scope := hlevel.scope.trans hlevel'.scope.symm
  refine ⟨s, s', hs, hs', ?_, hlevel.graph, hlevel'.graph, ?_⟩
  · exact State.Solo.typeOf?_agree hsolo hsolo' hgraph hscope
  · exact State.Solo.finish_perm hsolo hsolo' hgraph hscope

/-- A type that can be called with an integer, and two symbols that are not bound yet. -/
def callable : TypeGraph where
  symbols := #[⟨"Int", some ⟨0⟩⟩, ⟨"twice", some ⟨1⟩⟩, ⟨"", none⟩, ⟨"", none⟩]
  types := #[{ symbol := ⟨0⟩, kind := .record },
    { symbol := ⟨1⟩, kind := .record, signatures := [⟨none, [⟨"p", ⟨0⟩, none⟩], ⟨0⟩⟩] }]

def callableScope : Scope Declaration :=
  .table [.value ⟨"twice", ⟨1⟩, .value⟩, .value ⟨"x", ⟨2⟩, .value⟩, .value ⟨"y", ⟨3⟩, .value⟩]

def twiceX : Expr :=
  .call ⟨⟨2⟩, default⟩ (.ident ⟨⟨0⟩, default⟩ "twice") [.ident ⟨⟨1⟩, default⟩ "x"]

theorem constituent_callable {x : SymbolId} (h : callable.Constituent x) : x = ⟨0⟩ ∨ x = ⟨1⟩ := by
  cases h with
  | @own x t hx =>
    obtain ⟨_ | _ | _ | _ | n⟩ := x <;> cases hx
    · exact .inl rfl
    · exact .inr rfl
  | @part t e he => obtain ⟨_ | _ | n⟩ := t <;> cases he
  | @parameter t d signature p hd hs hp =>
    obtain ⟨_ | _ | n⟩ := t <;> cases hd
    · cases hs
    · cases List.mem_singleton.mp hs
      cases List.mem_singleton.mp hp
      exact .inl rfl

/-- The call waits for `x`, which is unified with `y` before and gets its type with it afterwards. -/
theorem inferred_alike_anywhere_twice :
    (unifyAll (.initial callable callableScope) [(⟨2⟩, ⟨3⟩), (⟨3⟩, ⟨0⟩)]).2 = .ok [true, true] ∧
    ∃ s s', inferAmid (.initial callable callableScope) twiceX [(⟨2⟩, ⟨3⟩)] [(⟨3⟩, ⟨0⟩)] =
        (s, .ok [true, true]) ∧
      inferAmid (.initial callable callableScope) twiceX [(⟨2⟩, ⟨3⟩), (⟨3⟩, ⟨0⟩)] [] =
        (s', .ok [true, true]) ∧
      s.typeOf? ⟨2⟩ = some ⟨0⟩ ∧ s'.typeOf? ⟨2⟩ = some ⟨0⟩ ∧
      (finish s).diagnostics.Perm (finish s').diagnostics := by
  have hunify : (unifyAll (.initial callable callableScope) [(⟨2⟩, ⟨3⟩), (⟨3⟩, ⟨0⟩)]).2 =
      .ok [true, true] := by decide +kernel
  have hids : ∀ n, Tree.count n twiceX.preorder ≤ 1 := by
    intro n
    have hnodup : (twiceX.preorder.map Tree.Node.id).Nodup := by decide
    have hle := List.nodup_iff_count_le_one.mp hnodup n
    rwa [List.count, List.countP_map] at hle
  have hbefore : [(⟨2⟩, ⟨3⟩)] ++ [(⟨3⟩, ⟨0⟩)] = [((⟨2⟩, ⟨3⟩) : SymbolId × SymbolId), (⟨3⟩, ⟨0⟩)] := rfl
  have hfirm : ∀ x, callable.Constituent x →
      (unifyAll (.initial callable callableScope) [(⟨2⟩, ⟨3⟩), (⟨3⟩, ⟨0⟩)]).1.graph.bound? x =
        callable.bound? x := by
    intro x hx
    rcases constituent_callable hx with rfl | rfl <;> decide +kernel
  obtain ⟨s, s', hs, hs', htyped, -, -, hperm⟩ := inferred_alike_anywhere hids hbefore
    (List.append_nil _) (Prod.ext rfl hunify) fun _ _ _ _ => hfirm
  have htwo : s'.typeOf? ⟨2⟩ = some ⟨0⟩ := by
    have hstate : _ = s' := congrArg Prod.fst hs'
    rw [← hstate]
    decide +kernel
  exact ⟨hunify, s, s', hs, hs', (htyped _).trans htwo, htwo, hperm⟩

/-- A type that can be called with an array of integers, and an array of something not known yet. -/
def openCallable : TypeGraph where
  symbols := #[⟨"Int", some ⟨0⟩⟩, ⟨"twice", some ⟨1⟩⟩, ⟨"", some ⟨2⟩⟩, ⟨"", none⟩, ⟨"", some ⟨3⟩⟩]
  types := #[{ symbol := ⟨0⟩, kind := .record },
    { symbol := ⟨1⟩, kind := .record, signatures := [⟨none, [⟨"p", ⟨4⟩, none⟩], ⟨0⟩⟩] },
    { symbol := ⟨2⟩, kind := .array ⟨3⟩ none }, { symbol := ⟨4⟩, kind := .array ⟨0⟩ none }]

-- The elements of `x` turn out to be integers only after its array has been found not to fit.
example :
    (inferAmid (.initial openCallable callableScope) twiceX [(⟨3⟩, ⟨0⟩)] []).1.typeOf? ⟨2⟩ =
      some ⟨0⟩ ∧
    (inferAmid (.initial openCallable callableScope) twiceX [] [(⟨3⟩, ⟨0⟩)]).1.typeOf? ⟨2⟩ =
      some Prelude.error := by
  decide +kernel

end Binder.Inference
