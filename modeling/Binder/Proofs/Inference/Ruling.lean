import Binder.Proofs.Inference.Stuck

/-! Rulings. While nothing but expressions is inferred, every symbol that a node gets comes of a verdict
about it, and so does everything that is reported. Verdicts last as long as the graph settles the
types that they are about. -/
namespace Binder.Inference

open Binder.Tree (Expr Mark NodeId)

variable {next : WhenBound} {t : TypeId} {n : NodeId}

/-- Whether the fault is that two types differ. -/
def isMismatch : Fault → Bool
  | .typeMismatch _ _ => true
  | _ => false

/-- The continuation belongs to an expression. -/
def WhenBound.isBare : WhenBound → Bool
  | .select _ _ | .deliver _ _ => true
  | .compare _ _ | .observe _ _ => false

def WhenTyped.isBare : WhenTyped → Bool
  | .resolve _ next => next.isBare
  | .copy _ => true
  | .initialise _ _ | .observe _ _ => false

/-- The task belongs to the inference of an expression. -/
def Task.isBare : Task → Bool
  | .infer _ | .record _ _ | .wake _ | .settle => true
  | .pend _ next | .typed next _ => next.isBare
  | .pendType _ _ next | .bound next _ => next.isBare
  | .mismatch _ _ _ | .note _ | .act _ _ => false

/-- A task of an expression that lets nothing go that waits for a symbol to be bound. -/
def Task.isCalm : Task → Bool
  | .wake _ | .settle => false
  | task => task.isBare

theorem Task.isBare_of_isCalm {task : Task} (h : task.isCalm) : task.isBare := by
  cases task with
  | wake | settle => rfl
  | _ => exact h

namespace Verdict

/-- Verdicts about types of the first graph are the same in both; those on calls matter only where
something is called. -/
structure Steady (E : List Expr) (g g' : TypeGraph) : Prop where
  ofMember : ∀ member {x t}, g.bound? x = some t → ofMember g' member t = ofMember g member t
  ofCall : ∀ {note target arguments}, .call note target arguments ∈ E →
    ∀ names {ts : List TypeId}, (∀ t ∈ ts, ∃ x, g.bound? x = some t) →
      ofCall g' names ts = ofCall g names ts

theorem Steady.refl (E : List Expr) (g : TypeGraph) : Steady E g g :=
  ⟨fun _ _ _ _ => rfl, fun _ _ _ _ => rfl⟩

/-- A settled graph tells all there is to say about its types. -/
theorem steady_of_settled {V : List SymbolId} {D : Prop} {E : List Expr} {g g' : TypeGraph}
    (hg : g.Settled V D) (hranked : ∃ rank, g'.Ranked rank) (hgrows : g.Grows g') : Steady E g g' where
  ofMember member x t ht := by
    have htype := hg.types ht
    obtain ⟨d, hd⟩ := htype.exists_def?
    simp only [Verdict.ofMember, TypeGraph.isErrorType_eq hgrows htype, hd, hgrows.defs hd]
  ofCall _ names types htypes := by
    have htype : ∀ t ∈ types, g.HasType t := by
      intro t ht
      obtain ⟨x, hx⟩ := htypes t ht
      exact hg.types hx
    obtain ⟨rank, hrank⟩ := hranked
    refine Verdict.ofCall_congr ?_ ?_ htype names
    · intro t ht
      obtain ⟨d, hd⟩ := ht.exists_def?
      rw [hd, hgrows.defs hd]
    · intro t d s q u hd hs hq hu
      have hmem : q.type ∈ s.uses := List.mem_cons_of_mem _ (List.mem_map_of_mem hq)
      exact hg.sameType_symbolOf_eq hrank hgrows (hg.uses hd (TypeDef.signature_mem_uses hs hmem)).1 hu

end Verdict

namespace State

variable {E : List Expr} {s s' : State} {task : Task} {ts rest new : List Task} {x : Expr}
  {v : Verdict}

/-- Nothing but expressions is inferred. -/
def Bare (s : State) (ts : List Task) : Prop := s.Throughout (fun task => task.isBare) ts

/-- What the inference of expressions leaves alone. -/
structure Spares (s s' : State) : Prop where
  graph : s'.graph = s.graph
  scope : s'.scope = s.scope
  groups : s'.groups.groups = s.groups.groups

theorem Undisturbed.spares (h : s.Undisturbed s') : s.Spares s' :=
  ⟨h.graph, h.scope, by rw [h.groups]⟩

theorem calm_infer (s : State) (e : Expr) : ∀ task ∈ (s.infer e).1, task.isCalm := by
  intro task htask
  cases opens_of_mem_infer htask <;> rfl

theorem calm_onBound (h : next.isBare) :
    ∀ task ∈ (s.onBound next t).1, task.isCalm := by
  intro task htask
  rcases of_mem_onBound htask with ⟨node, symbol, rfl⟩ | ⟨tag, acts, a, symbol, rfl, -⟩
  · rfl
  · cases h

/-- A step of the inference of expressions fails only where a node has a symbol already. -/
theorem Bare.step (h : s.Bare (task :: rest)) (hlinear : s.Linear (task :: rest)) :
    ∃ new s', s.step task = .ok (new, s') ∧ s'.Bare (new ++ rest) ∧ s.Spares s' := by
  have htask : task.isBare := h.tasks task List.mem_cons_self
  obtain ⟨new, s', hs⟩ : ∃ new s', s.step task = .ok (new, s') := by
    apply exists_step
    · rintro node symbol rfl
      exact Option.not_isSome_iff_eq_none.mp (by simp [hlinear.untyped])
    · rintro value origin symbol rfl
      cases htask
    · rintro a symbol rfl
      cases htask
  have hpasses : PassesOn (fun task => task.isBare) (fun task => task.isBare) s s' :=
    ⟨id, fun h _ => h, fun h _ => h, id, fun _ => rfl, rfl⟩
  refine ⟨new, s', hs, Throughout.step h hs hpasses ?_, ?_⟩
  · intro hsource
    cases move_step hs with
    | infer e => exact fun t ht => Task.isBare_of_isCalm (calm_infer s e t ht)
    | bound next t => exact fun t ht => Task.isBare_of_isCalm (calm_onBound htask t ht)
    | copy => exact List.forall_mem_singleton.mpr rfl
    | initialise | observe | actInfer | actRecord | actPend | actPendType | actUnify | actBound =>
      cases htask
    | _ => exact hsource.elim
  · cases move_step hs with
    | infer e => exact (undisturbed_infer s e).spares
    | bound next t => exact (undisturbed_onBound s next t).spares
    | initialise | mismatch | actUnify | actBound => cases htask
    | _ => exact ⟨rfl, rfl, rfl⟩

theorem verdict?_congr (hgraph : s'.graph = s.graph) (hscope : s'.scope = s.scope)
    (htyped : ∀ y ∈ x.operands, s'.typeOf? y.id = s.typeOf? y.id) : s'.verdict? x = s.verdict? x := by
  have hresolved : ∀ y ∈ x.operands, s'.resolved? y.id = s.resolved? y.id := by
    intro y hy
    rw [resolved?, resolved?, htyped y hy, hgraph]
  cases x with
  | selection note target member =>
    simp only [verdict?, hgraph, hresolved target List.mem_cons_self]
  | call note target arguments =>
    have hslots : (target :: arguments).map (fun e => s'.resolved? e.id) =
        (target :: arguments).map fun e => s.resolved? e.id := List.map_congr_left hresolved
    simp only [verdict?, hslots, hgraph]
  | namedArgument note name value => simp only [verdict?, htyped value List.mem_cons_self]
  | literal | sequence | definition | typeLiteral | arrayType | referenceType | extension => rfl
  | ident => simp only [verdict?, hscope]

theorem verdict?_mono (hout : s.Outlasts s') (hscope : s'.scope = s.scope)
    (hsteady : Verdict.Steady E s.graph s'.graph) (hx : x ∈ E) (h : s.verdict? x = some v) :
    s'.verdict? x = some v := by
  cases x with
  | selection note target member =>
    obtain ⟨t, ht, rfl⟩ := Option.map_eq_some_iff.mp h
    obtain ⟨symbol, -, hbound⟩ := Option.bind_eq_some_iff.mp ht
    simp only [verdict?, hout.resolved? ht, Option.map_some, hsteady.ofMember member hbound]
  | call note target arguments =>
    simp only [verdict?] at h ⊢
    split at h
    next hall =>
      have hsome : ∀ e ∈ target :: arguments, ∃ t, s.resolved? e.id = some t := by
        intro e he
        rw [List.all_map, List.all_eq_true] at hall
        exact Option.isSome_iff_exists.mp (hall e he)
      have hslots : (target :: arguments).map (fun e => s'.resolved? e.id) =
          (target :: arguments).map fun e => s.resolved? e.id := by
        apply List.map_congr_left
        intro e he
        obtain ⟨t, ht⟩ := hsome e he
        rw [ht, hout.resolved? ht]
      rw [hslots, if_pos hall, hsteady.ofCall hx, ← h]
      intro t ht
      obtain ⟨slot, hslot, hid⟩ := List.mem_filterMap.mp ht
      cases hid
      obtain ⟨e, -, he⟩ := List.mem_map.mp hslot
      obtain ⟨symbol, -, hbound⟩ := Option.bind_eq_some_iff.mp he
      exact ⟨symbol, hbound⟩
    next => cases h
  | namedArgument note name value =>
    obtain ⟨symbol, hsymbol, rfl⟩ := Option.map_eq_some_iff.mp h
    simp only [verdict?, hout.typed hsymbol, Option.map_some]
  | literal | sequence | definition | typeLiteral | arrayType | referenceType | extension => exact h
  | ident =>
    simp only [verdict?, hscope] at h ⊢
    exact h

end State

/-- A node with the verdict about it. -/
structure Ruling where
  node : Expr
  verdict : Verdict

namespace Ruling

def entry (r : Ruling) : NodeId × SymbolId := (r.node.id, r.verdict.symbol)

def reports (r : Ruling) : List Diagnostic :=
  r.verdict.fault.toList.map fun fault => ⟨r.node.span, fault⟩

end Ruling

def records (ts : List Task) : List (NodeId × SymbolId) :=
  ts.filterMap fun
    | .record node symbol => some (node, symbol)
    | _ => none

@[simp] theorem records_nil : records [] = [] := rfl

@[simp] theorem records_append (ts us : List Task) : records (ts ++ us) = records ts ++ records us :=
  List.filterMap_append

theorem records_cons (t : Task) (ts : List Task) : records (t :: ts) = records [t] ++ records ts :=
  records_append [t] ts

theorem mem_records {ts : List Task} {a : SymbolId} :
    (n, a) ∈ records ts ↔ Task.record n a ∈ ts := by
  rw [records, List.mem_filterMap]
  constructor
  · rintro ⟨task, htask, heq⟩
    split at heq
    · cases heq
      exact htask
    · cases heq
  · exact fun h => ⟨_, h, rfl⟩

namespace State

variable {E : List Expr} {s s' : State} {task : Task} {ts rest new : List Task} {x : Expr}
  {v : Verdict} {R : List Ruling} {symbol : SymbolId}

/-- What nodes have got, are about to get and were reported for comes of verdicts about them. -/
structure Ruled (E : List Expr) (s : State) (ts : List Task) (R : List Ruling) : Prop where
  verdicts : ∀ r ∈ R, r.node ∈ E ∧ s.verdict? r.node = some r.verdict
  entries : (s.typed ++ records ts).Perm (R.map Ruling.entry)
  reports : s.diagnostics = R.flatMap Ruling.reports

theorem record_eq {node : NodeId} (hs : s.record node symbol = .ok (new, s')) :
    records new = [] ∧ s' = { s with
      typed := (node, symbol) :: s.typed
      waiting := s.waiting.filter fun w => !decide (w.1 = node) } := by
  unfold record at hs
  split at hs
  · cases hs
  · cases hs
    refine ⟨?_, rfl⟩
    rw [records, List.filterMap_eq_nil_iff]
    intro task htask
    obtain ⟨w, -, rfl⟩ := List.mem_map.mp htask
    rfl

theorem voice_filed (calls : Array Gathering) (span : Span) (fault : Option Fault) :
    voice { s with calls := calls } span fault =
      { s.voice span fault with calls := (voice { s with calls := calls } span fault).calls } := by
  cases fault <;> rfl

/-- What a step in the inference of some nodes comes down to. -/
inductive Turn (E : List Expr) (s : State) (task : Task) (new : List Task) (s' : State) : Prop
  /-- a verdict about one of the nodes -/
  | verdict {x : Expr} {v : Verdict} (hx : x ∈ E) (hv : s.verdict? x = some v)
      (htask : records [task] = []) (hnew : new = [.record x.id v.symbol])
      (hafter : s' = { s.voice x.span v.fault with calls := s'.calls })
  /-- a symbol that is given to a node -/
  | record {node : NodeId} {symbol : SymbolId} (htask : task = .record node symbol)
      (hafter : s.record node symbol = .ok (new, s'))
  /-- something that is neither, and reports no more than a mismatch -/
  | pass (htask : records [task] = []) (hnew : records new = []) (htyped : s'.typed = s.typed)
      (hscope : s'.scope = s.scope)
      (hreports : s'.diagnostics = s.diagnostics ∨
        ∃ d, isMismatch d.fault ∧ s'.diagnostics = s.diagnostics ++ [d])
      (hbare : task.isBare → s'.diagnostics = s.diagnostics)

theorem records_eq_nil (h : ∀ task ∈ ts, ∀ node symbol, task ≠ .record node symbol) :
    records ts = [] := by
  rw [records, List.filterMap_eq_nil_iff]
  intro task htask
  split
  next node symbol => exact absurd rfl (h _ htask node symbol)
  next => rfl

namespace Turn

theorem quiet (htask : records [task] = []) (hnew : records new = []) (htyped : s'.typed = s.typed)
    (hscope : s'.scope = s.scope) (hdiagnostics : s'.diagnostics = s.diagnostics) :
    Turn E s task new s' :=
  .pass htask hnew htyped hscope (.inl hdiagnostics) fun _ => hdiagnostics

theorem mismatch (htask : records [task] = []) (hbare : task.isBare = false)
    (expected found : SymbolId) (origin : Span) :
    Turn E s task [] (s.mismatch expected found origin) := by
  have hreports : (s.mismatch expected found origin).diagnostics = s.diagnostics ∨
      ∃ d : Diagnostic, isMismatch d.fault ∧
        (s.mismatch expected found origin).diagnostics = s.diagnostics ++ [d] := by
    unfold State.mismatch
    split
    · exact .inl rfl
    · exact .inr ⟨_, rfl, rfl⟩
  have hs := s.undisturbed_mismatch expected found origin
  exact .pass htask rfl hs.typed hs.scope hreports fun h => by simp [hbare] at h

theorem infer {e : Expr} (he : e ∈ E) : Turn E s (.infer e) (s.infer e).1 (s.infer e).2 := by
  cases e with
  | literal node value => exact .verdict (v := ⟨Prelude.literalType value, none⟩) he rfl rfl rfl rfl
  | ident node name =>
    rw [infer_ident]
    exact .verdict he rfl rfl rfl rfl
  | selection | namedArgument => exact .quiet rfl rfl rfl rfl rfl
  | call node target arguments =>
    refine .quiet rfl (records_eq_nil ?_) rfl rfl rfl
    intro task htask
    obtain ⟨i, e, -, rfl | rfl⟩ := mem_gather htask <;> exact nofun
  | sequence | definition | typeLiteral | arrayType | referenceType | extension =>
    exact .verdict (v := .rejected .unknownNode) he rfl rfl rfl rfl

theorem onBound (hp : s.Provenance E (.bound next t :: rest))
    (hd : s.Delivering (.bound next t :: rest)) :
    Turn E s (.bound next t) (s.onBound next t).1 (s.onBound next t).2 := by
  obtain ⟨x, -, hresolved, huses⟩ := hp.tasks _ List.mem_cons_self
  cases next with
  | select node member =>
    simp only [State.onBound, select_eq_pronounce]
    have hverdict : s.verdict? (.selection node x member) = some (.ofMember s.graph member t) := by
      rw [verdict?, hresolved]
      rfl
    exact .verdict huses hverdict rfl rfl rfl
  | deliver call slot =>
    obtain ⟨gathering, hcall, -⟩ := hd.slot_of_deliver
    rw [State.onBound, deliver_eq hcall]
    split
    next hlast =>
      obtain ⟨target, arguments, hmem, hverdict⟩ := hp.verdict?_of_deliver hd hcall hlast
      rw [resolve_eq_pronounce]
      exact .verdict hmem hverdict rfl rfl (voice_filed ..)
    next => exact .quiet rfl rfl rfl rfl rfl
  | compare expected origin =>
    simp only [State.onBound]
    split
    · exact .quiet rfl rfl rfl rfl rfl
    · exact .mismatch rfl rfl ..
  | observe => cases huses

end Turn

theorem Provenance.turn (hp : s.Provenance E (task :: rest)) (hd : s.Delivering (task :: rest))
    (hs : s.step task = .ok (new, s')) : Turn E s task new s' := by
  have htask : s.Traced E task := hp.tasks _ List.mem_cons_self
  cases move_step hs with
  | infer => exact .infer htask
  | record => exact .record rfl hs
  | bound => exact .onBound hp hd
  | @copy _ symbol =>
    obtain ⟨node, htyped, note, name, value, hmem, rfl, rfl⟩ := htask
    have hverdict : s.verdict? (.namedArgument note name value) = some ⟨symbol, none⟩ := by
      rw [verdict?, htyped]
      rfl
    exact .verdict hmem hverdict rfl rfl rfl
  | @initialise _ _ _ unified => cases unified <;> exact .quiet rfl rfl rfl rfl rfl
  | wake =>
    refine .quiet rfl (records_eq_nil ?_) rfl rfl rfl
    intro task htask
    obtain ⟨w, -, rfl⟩ := List.mem_map.mp htask
    intro _ _ heq
    cases heq
  | settle =>
    refine .quiet rfl (records_eq_nil ?_) rfl rfl rfl
    intro task htask
    rintro node symbol rfl
    simp at htask
  | mismatch => exact .mismatch rfl rfl ..
  | observe => obtain ⟨-, -, ⟨⟩⟩ := htask
  | actInfer | actRecord | actPend | actPendType | actUnify | actBound => cases htask
  | _ => exact .quiet rfl rfl rfl rfl rfl

namespace Ruled

/-- Whatever a step adds comes of a verdict. -/
theorem step (h : s.Ruled E (task :: rest) R) (hp : s.Provenance E (task :: rest))
    (hd : s.Delivering (task :: rest)) (hsteady : Verdict.Steady E s.graph s'.graph)
    (hquiet : task.isBare ∨ s'.diagnostics = []) (hs : s.step task = .ok (new, s')) :
    ∃ R', s'.Ruled E (new ++ rest) R' := by
  have hentries := h.entries
  have hadvances := advances_step hs
  have hverdicts : ∀ r ∈ R, r.node ∈ E ∧ s'.verdict? r.node = some r.verdict := by
    intro r hr
    obtain ⟨hmem, hverdict⟩ := h.verdicts r hr
    exact ⟨hmem, verdict?_mono (outlasts_step hs) hadvances.scope hsteady hmem hverdict⟩
  rcases hp.turn hd hs with ⟨hx, hv, htask, rfl, hafter⟩ | ⟨rfl, hrecord⟩ |
    ⟨htask, hnew, htyped, -, -, hbare⟩
  next x v =>
    have hlast := verdict?_mono (outlasts_step hs) hadvances.scope hsteady hx hv
    refine ⟨R ++ [⟨x, v⟩], ?_, ?_, ?_⟩
    · exact List.forall_mem_append.mpr ⟨hverdicts, List.forall_mem_singleton.mpr ⟨hx, hlast⟩⟩
    · rw [records_cons, htask] at hentries
      have htyped : s'.typed = s.typed := by
        rw [hafter]
        cases v.fault <;> rfl
      rw [htyped, List.map_append]
      exact (List.perm_middle.trans (List.perm_append_singleton _ _).symm).trans (hentries.append_right _)
    · have hreports : s'.diagnostics = s.diagnostics ++ Ruling.reports ⟨x, v⟩ := by
        rw [hafter, Ruling.reports]
        cases v.fault <;> simp [voice, report]
      rw [hreports, h.reports]
      simp
  next =>
    obtain ⟨hnew, rfl⟩ := record_eq hrecord
    refine ⟨R, hverdicts, ?_, h.reports⟩
    rw [records_append, hnew]
    exact List.perm_middle.symm.trans hentries
  next =>
    have hdiagnostics : s'.diagnostics = s.diagnostics := by
      rcases hquiet with hquiet | hclean
      · exact hbare hquiet
      · have hbefore : s.diagnostics = [] := List.prefix_nil.mp (hclean ▸ hadvances.diagnostics)
        rw [hclean, hbefore]
    refine ⟨R, hverdicts, ?_, hdiagnostics.trans h.reports⟩
    rw [records_cons, htask] at hentries
    rw [records_append, hnew, htyped]
    exact hentries

theorem exists_of_typeOf? (h : s.Ruled E [] R)
    (htyped : s.typeOf? n = some symbol) : ∃ r ∈ R, r.node.id = n ∧ r.verdict.symbol = symbol := by
  have hmem : (n, symbol) ∈ s.typed ++ records [] := by
    obtain ⟨l, l', heq, -⟩ := List.lookup_eq_some_iff.mp htyped
    simp [heq]
  obtain ⟨r, hr, hentry⟩ := List.mem_map.mp (h.entries.mem_iff.mp hmem)
  obtain ⟨hid, hsymbol⟩ := Prod.mk.inj hentry
  exact ⟨r, hr, hid, hsymbol⟩

end Ruled

namespace Followed

theorem verdict?_eq_none (h : s.Followed E) (hx : x ∈ E) (hnone : s.typeOf? x.id = none) :
    s.verdict? x = none := by
  obtain ⟨y, hy, hstuck⟩ := h.stuck hx hnone
  have hresolved : s.typeOf? y.id = none ∨ x.argumentName? = none → s.resolved? y.id = none := by
    intro _
    rcases hstuck with huntyped | ⟨-, symbol, next, htyped, hblocked⟩
    · simp [resolved?, huntyped]
    · simp [resolved?, htyped, h.vigilant.unbound _ hblocked]
  cases x with
  | selection note target member =>
    cases List.mem_singleton.mp hy
    simp only [verdict?, hresolved (.inr rfl), Option.map_none]
  | call note target arguments =>
    simp only [verdict?]
    rw [if_neg]
    rw [List.all_map, List.all_eq_true]
    intro hall
    have hsome := hall y hy
    simp [hresolved (.inr rfl)] at hsome
  | namedArgument note name value =>
    cases List.mem_singleton.mp hy
    rcases hstuck with huntyped | ⟨hname, -⟩
    · simp only [verdict?, huntyped, Option.map_none]
    · cases hname
  | literal | ident | sequence | definition | typeLiteral | arrayType | referenceType
  | extension => cases hy

/-- A node has the symbol of the verdict about it, and none if there is no verdict. -/
theorem typeOf?_eq (h : s.Followed E) (hR : s.Ruled E [] R) (hx : x ∈ E) :
    s.typeOf? x.id = (s.verdict? x).map Verdict.symbol := by
  cases htyped : s.typeOf? x.id with
  | none => rw [h.verdict?_eq_none hx htyped, Option.map_none]
  | some symbol =>
    obtain ⟨r, hr, hid, rfl⟩ := hR.exists_of_typeOf? htyped
    obtain ⟨hmem, hverdict⟩ := hR.verdicts r hr
    rw [← h.provenance.distinct _ hmem x hx hid, hverdict, Option.map_some]

theorem fault_eq_none (h : s.Followed E) (hR : s.Ruled E [] R) (hclean : s.diagnostics = [])
    (hx : x ∈ E) (hv : s.verdict? x = some v) : v.fault = none := by
  have htyped := h.typeOf?_eq hR hx
  rw [hv, Option.map_some] at htyped
  obtain ⟨r, hr, hid, -⟩ := hR.exists_of_typeOf? htyped
  obtain ⟨hmem, hverdict⟩ := hR.verdicts r hr
  cases h.provenance.distinct _ hmem x hx hid
  cases hv.symm.trans hverdict
  have hreports := List.flatMap_eq_nil_iff.mp (hR.reports.symm.trans hclean) r hr
  exact Option.toList_eq_nil_iff.mp (List.map_eq_nil_iff.mp hreports)

end Followed
end State
end Binder.Inference
