import Binder.Proofs.Inference.Reading
import Binder.Proofs.Inference.Ruling
import Binder.Proofs.TypeGraph.Pairing

/-! Runs that are reflected in a model. A model is a graph in which whatever a run may come to holds
already: the values of the run stand for values of the model, and each initialiser has the type of its
value there. Then no step of the run leads out of the model. Every node gets a symbol that can be read
off the model, every value gets a type like the one it has there, and values never clash with their
initialisers. A model that finds no fault sees none reported. -/
namespace Binder.Inference

open Binder.Tree (Expr Mark NodeId)
open TypeGraph (Like Paired)

namespace Verdicts

variable {p : Pairing} {V : List SymbolId} {D : Prop} {g h : TypeGraph} {t u : TypeId}

theorem ofMember (hp : Paired p V g h) (hg : g.Plain) (hh : h.Plain)
    (herror : p.symbol Prelude.error Prelude.error) (hl : Like p.type g h t u) (member : String) :
    Verdicts p.symbol (.ofMember g member t) (.ofMember h member u) := by
  unfold Verdict.ofMember
  rw [hp.isErrorType_eq hl]
  split
  · exact ⟨herror, rfl⟩
  obtain ⟨d, d', hd, hd', hcases⟩ := hp.cases_of_like hg hh hl
  rw [hd, hd', Option.bind_some, Option.bind_some]
  rcases hcases with ⟨-, hdefs⟩ | ⟨hscope, -, hscope', -⟩
  · have hmember := hdefs.findMember? member
    generalize d.findMember? member = m at hmember
    generalize d'.findMember? member = m' at hmember
    cases hmember with
    | none => exact ⟨herror, rfl⟩
    | some hm => exact ⟨hm.type, rfl⟩
  · have hnone : d.findMember? member = none := by rw [TypeDef.findMember?, hscope]; rfl
    have hnone' : d'.findMember? member = none := by rw [TypeDef.findMember?, hscope']; rfl
    rw [hnone, hnone']
    exact ⟨herror, rfl⟩

theorem ofCall (hp : Paired p V g h) (hg : g.Comparable) (hh : h.Settled V D) (hc : h.Comparable)
    (herror : p.symbol Prelude.error Prelude.error) {ts us : List TypeId}
    (hl : List.Forall₂ (Like p.type g h) ts us) (names : List (Option String)) :
    Verdicts p.symbol (.ofCall g names ts) (.ofCall h names us) :=
  Verdict.ofCall_rel herror (fun _ _ => hp.isErrorType_eq) (fun _ _ => hp.signatures hg hh hc) hl names

end Verdicts

/-- What a run is compared with. -/
structure Model where
  graph : TypeGraph
  scope : Scope Declaration
  /-- which symbols and types of the model stand for which of the run -/
  pairing : Pairing
  /-- the expressions of the run that initialise values -/
  initialises : Expr → SymbolId → Prop
  /-- the expressions of the run that are to have the type of a symbol -/
  expects : Expr → SymbolId → Prop

namespace Model

variable (M : Model) {E : List Expr}

/-- The symbol of an expression stands for what can be read off the model. -/
def Reflects (e : Expr) (x : SymbolId) : Prop :=
  ∃ v, reading? M.graph M.scope e = some v ∧ M.pairing.symbol v.symbol x

/-- A name means the same in the scope of the model and in that of the run. -/
def Names : Option Declaration → Option Declaration → Prop
  | some (.value m), some (.value m') => M.pairing.symbol m.type m'.type
  | some (.type _), some (.type _) => True
  | none, none => True
  | _, _ => False

/-- The values of the run have partners in the model, which are tied to their initialisers. -/
structure Closed (V : List SymbolId) : Prop where
  comparable : M.graph.Comparable
  prelude : ∀ {x}, Prelude.graph.HasSymbol x → M.pairing.symbol x x
  partner : ∀ x ∈ V, ∃ y, M.pairing.symbol y x
  unique : ∀ {x y y'}, x ∈ V → M.pairing.symbol y x → M.pairing.symbol y' x → y = y'
  tied : ∀ {e x y v}, M.initialises e x → M.pairing.symbol y x →
    reading? M.graph M.scope e = some v → M.graph.Tied y v.symbol

/-- Nothing that can be read off the model is at fault. -/
structure Faultless (E : List Expr) : Prop where
  readings : ∀ e ∈ E, ∀ v, reading? M.graph M.scope e = some v → v.fault = none
  expected : ∀ {e x v u}, M.expects e x → reading? M.graph M.scope e = some v →
    M.graph.bound? v.symbol = some u →
    ∃ y, M.pairing.symbol y x ∧ M.graph.sameType y (M.graph.symbolOf u) = true

/-- What waits for a node belongs to an expression of the run. -/
def Awaits (E : List Expr) (node : NodeId) : WhenTyped → Prop
  | .initialise x _ => ∃ e ∈ E, e.id = node ∧ M.initialises e x
  | .resolve _ (.compare x _) => ∃ e ∈ E, e.id = node ∧ M.expects e x
  | _ => True

/-- What waits for a symbol belongs to an expression that the symbol reflects. -/
def Asks (symbol : SymbolId) : WhenBound → Prop
  | .compare x _ => ∃ e, M.expects e x ∧ M.Reflects e symbol
  | _ => True

/-- What is told a symbol belongs to an expression that the symbol reflects. -/
def Tells (symbol : SymbolId) : WhenTyped → Prop
  | .initialise x _ => ∃ e, M.initialises e x ∧ M.Reflects e symbol
  | .resolve _ next => M.Asks symbol next
  | _ => True

/-- What a task is about stays within the model. -/
def Serves (E : List Expr) (g : TypeGraph) : Task → Prop
  | .record node symbol => ∃ e ∈ E, e.id = node ∧ M.Reflects e symbol
  | .pend node next => M.Awaits E node next
  | .pendType symbol _ next => M.Asks symbol next
  | .typed next symbol => M.Tells symbol next
  | .bound next t => ∃ symbol, g.bound? symbol = some t ∧ M.Asks symbol next
  | .mismatch _ _ _ => False
  | _ => True

theorem Serves.grows {M : Model} {g g' : TypeGraph} {task : Task}
    (h : M.Serves E g task) (hg : g.Grows g') : M.Serves E g' task := by
  cases task with
  | bound next t =>
    obtain ⟨symbol, hbound, hasks⟩ := h
    exact ⟨symbol, hg.bound hbound, hasks⟩
  | infer | record | pend | pendType | typed | wake | settle | mismatch | note | act => exact h

theorem Awaits.tells {M : Model} (hE : Inferable E) {node : NodeId}
    {next : WhenTyped} (h : M.Awaits E node next) {e : Expr} (he : e ∈ E) (hid : e.id = node)
    {symbol : SymbolId} (hr : M.Reflects e symbol) : M.Tells symbol next := by
  cases next with
  | initialise x origin =>
    obtain ⟨e', he', hid', hinitialises⟩ := h
    cases hE.distinct e he e' he' (hid.trans hid'.symm)
    exact ⟨e, hinitialises, hr⟩
  | resolve origin next =>
    cases next with
    | compare x origin =>
      obtain ⟨e', he', hid', hexpects⟩ := h
      cases hE.distinct e he e' he' (hid.trans hid'.symm)
      exact ⟨e, hexpects, hr⟩
    | select | deliver | observe => trivial
  | copy | observe => trivial

end Model

namespace State

variable {M : Model} {V : List SymbolId} {D : Prop} {E : List Expr} {s s' : State} {task : Task}
  {ts rest new : List Task} {x y a b : SymbolId} {t u : TypeId} {e : Expr}

/-- What a state of a run has found out is reflected in a model. -/
structure Mirrored (M : Model) (V : List SymbolId) (E : List Expr) (s : State) : Prop where
  paired : Paired M.pairing V M.graph s.graph
  sizeless : s.graph.Sizeless
  plain : s.graph.Plain
  names : ∀ name, M.Names (M.scope.find? name) (s.scope.find? name)
  typed : ∀ {node symbol}, s.typeOf? node = some symbol →
    ∃ e ∈ E, e.id = node ∧ M.Reflects e symbol
  values : ∀ x ∈ V, ∀ {y u}, M.pairing.symbol y x → s.graph.bound? x = some u →
    ∃ t, M.graph.bound? y = some t ∧ Like M.pairing.type M.graph s.graph t u
  groups : ∀ group ∈ s.groups.groups, ∀ a ∈ group, ∀ b ∈ group, ∀ {y z}, M.pairing.symbol y a →
    M.pairing.symbol z b → M.graph.Tied y z
  clean : M.Faultless E → s.diagnostics = []

namespace Mirrored

variable (h : s.Mirrored M V E)
include h

theorem bound (hgraph : s.graph.Settled V D)
    (hyx : M.pairing.symbol y x) (hx : s.graph.bound? x = some u) :
    ∃ t, M.graph.bound? y = some t ∧ Like M.pairing.type M.graph s.graph t u := by
  by_cases hV : x ∈ V
  · exact h.values x hV hyx hx
  · obtain ⟨t, ht, htu⟩ := h.paired.symbols hyx hV hx
    exact ⟨t, ht, h.paired.like hgraph hx htu⟩

theorem comparable (hgraph : s.graph.Settled V D) :
    s.graph.Comparable := .of_settled hgraph h.sizeless h.plain

theorem typeIn? (hE : Inferable E) (hgraph : s.graph.Settled V D)
    (he : e ∈ E) (ht : s.resolved? e.id = some u) :
    ∃ t, Inference.typeIn? M.graph M.scope e = some t ∧
      Like M.pairing.type M.graph s.graph t u := by
  obtain ⟨symbol, hsymbol, hbound⟩ := Option.bind_eq_some_iff.mp ht
  obtain ⟨e', he', hid, v, hv, hpair⟩ := h.typed hsymbol
  cases hE.distinct e' he' e he hid
  obtain ⟨t, ht, hlike⟩ := h.bound hgraph hpair hbound
  exact ⟨t, typeIn?_eq_some.mpr ⟨v, hv, ht⟩, hlike⟩

/-- A verdict of the run can be read off the model. -/
theorem verdict (hM : M.Closed V) (hE : Inferable E)
    (hgraph : s.graph.Settled V D) (he : e ∈ E) {w : Verdict} (hw : s.verdict? e = some w) :
    ∃ v, reading? M.graph M.scope e = some v ∧ Verdicts M.pairing.symbol v w := by
  have herror : M.pairing.symbol Prelude.error Prelude.error := hM.prelude (by decide)
  have hoperand : ∀ {y}, y ∈ e.operands → y ∈ E := fun hy => hE.operands e he _ hy
  cases e with
  | literal note value =>
    cases hw
    have hbuiltin : ∀ b : Builtin, Prelude.graph.HasSymbol b.symbol := by
      intro b
      cases b <;> decide
    exact ⟨_, rfl, hM.prelude (hbuiltin _), rfl⟩
  | ident note name =>
    cases hw
    refine ⟨_, rfl, ?_⟩
    have hnames := h.names name
    unfold Verdict.ofName
    generalize M.scope.find? name = declaration at hnames
    generalize s.scope.find? name = declaration' at hnames
    rcases declaration with _ | (_ | _) <;> rcases declaration' with _ | (_ | _) <;>
      first
      | exact ⟨herror, rfl⟩
      | exact ⟨hnames, rfl⟩
      | exact hnames.elim
  | selection note target member =>
    obtain ⟨u, hu, rfl⟩ := Option.map_eq_some_iff.mp hw
    obtain ⟨t, ht, hlike⟩ := h.typeIn? hE hgraph (hoperand List.mem_cons_self) hu
    rw [reading?_selection, ht]
    exact ⟨_, rfl, .ofMember h.paired hM.comparable.plain h.plain herror hlike member⟩
  | call note target arguments =>
    simp only [verdict?] at hw
    split at hw
    next hall =>
      cases hw
      have hslots : ∀ es : List Expr, es ⊆ target :: arguments →
          ((es.map fun e => s.resolved? e.id).all Option.isSome = true) →
          ∃ ts, readings? M.graph M.scope es = some ts ∧
            List.Forall₂ (Like M.pairing.type M.graph s.graph) ts
              ((es.map fun e => s.resolved? e.id).filterMap id) := by
        intro es hsub hsome
        induction es with
        | nil => exact ⟨[], rfl, .nil⟩
        | cons x es ih =>
          obtain ⟨hx, hes⟩ := List.cons_subset.mp hsub
          simp only [List.map_cons, List.all_cons, Bool.and_eq_true] at hsome
          obtain ⟨ts, hts, hrest⟩ := ih hes hsome.2
          obtain ⟨u, hu⟩ := Option.isSome_iff_exists.mp hsome.1
          obtain ⟨t, ht, hlike⟩ := h.typeIn? hE hgraph (hoperand hx) hu
          refine ⟨t :: ts, ?_, ?_⟩
          · rw [readings?_eq_some] at hts ⊢
            rw [List.map_cons, List.map_cons, ht, hts]
          · rw [List.map_cons, hu]
            exact .cons hlike hrest
      obtain ⟨ts, hts, hlikes⟩ := hslots _ (List.Subset.refl _) hall
      rw [reading?_call, hts]
      exact ⟨_, rfl, .ofCall h.paired hM.comparable hgraph (h.comparable hgraph) herror hlikes _⟩
    next => cases hw
  | namedArgument note name value =>
    obtain ⟨symbol, hsymbol, rfl⟩ := Option.map_eq_some_iff.mp hw
    obtain ⟨e', he', hid, v, hv, hpair⟩ := h.typed hsymbol
    cases hE.distinct e' he' value (hoperand List.mem_cons_self) hid
    rw [reading?, hv]
    exact ⟨_, rfl, hpair, rfl⟩
  | sequence | definition | typeLiteral | arrayType | referenceType | extension =>
    cases hw
    exact ⟨_, rfl, herror, rfl⟩

theorem unified (hgraph : s.graph.Settled V D)
    (hax : M.pairing.symbol a x) (hby : M.pairing.symbol b y) (htied : M.graph.Tied a b)
    {unified : Bool} (hu : s.unify x y = .ok (unified, s')) : unified = true := by
  by_cases heq : x = y
  · simp only [unify, Groups.unify, TypeGraph.nestingDepth, TypeGraph.meet, heq, ↓reduceIte,
      Except.ok.injEq, Prod.mk.injEq] at hu
    exact hu.1.symm
  cases hx : s.graph.bound? x with
  | none =>
    cases hy : s.graph.bound? y <;>
      simp only [unify, Groups.unify, TypeGraph.nestingDepth, TypeGraph.meet, heq, hx, hy,
        ↓reduceIte, Except.ok.injEq, Prod.mk.injEq] at hu <;>
      exact hu.1.symm
  | some t =>
    cases hy : s.graph.bound? y with
    | none =>
      simp only [unify, Groups.unify, TypeGraph.nestingDepth, TypeGraph.meet, heq, hx, hy,
        ↓reduceIte, Except.ok.injEq, Prod.mk.injEq] at hu
      exact hu.1.symm
    | some u =>
      -- Both have types, which are the same because those of their partners are.
      obtain ⟨t', ht', hlike⟩ := h.bound hgraph hax hx
      obtain ⟨u', hu', hlike'⟩ := h.bound hgraph hby hy
      obtain ⟨t'', ht'', hsame⟩ := htied.bound hu'
      cases ht'.symm.trans ht''
      have hrun := (h.paired.like_iff hlike hlike').mp hsame
      have hmeet := TypeGraph.meet_of_sameUpToSize hgraph.ranked
        (Nat.lt_succ_of_le TypeGraph.height_le) (hrun.same hx hy).upToSize
      simp only [unify, Groups.unify, TypeGraph.nestingDepth, hmeet, Except.ok.injEq,
        Prod.mk.injEq] at hu
      exact hu.1.symm

theorem tied_of_mem_groupOf (hM : M.Closed V) (hx : x ∈ V)
    (hy : y ∈ s.groups.groupOf x) (hax : M.pairing.symbol a x) (hby : M.pairing.symbol b y) :
    M.graph.Tied b a := by
  rcases Groups.mem_groupOf_cases hy with hmem | rfl
  · exact h.groups _ hmem y hy x (s.groups.mem_groupOf_self x) hby hax
  · rw [hM.unique hx hby hax]
    exact .refl hM.comparable a

theorem take (hM : M.Closed V) (htidy : s.Tidy V D ts) (hx : x ∈ V)
    (hnone : s.graph.bound? x = none) (hax : M.pairing.symbol a x)
    (ht : M.graph.bound? a = some t) (hlike : Like M.pairing.type M.graph s.graph t u) :
    (s.take x u).Mirrored M V E := by
  have hgrows : s.graph.Grows (s.take x u).graph := (Tidy.later_take s x u).graph
  have hbound := htidy.bound?_take hx hnone u
  have hdef : ∀ v, (s.take x u).graph.def? v = s.graph.def? v := by
    intro v
    rw [State.take, Groups.fst_spread, TypeGraph.def?_bindAll]
  refine
    { paired := h.paired.congr hdef ?_
      sizeless := fun hk => h.sizeless (by rwa [TypeGraph.kind?, hdef] at hk)
      plain := fun hd => h.plain ((hdef _).symm.trans hd)
      names := h.names
      typed := h.typed
      values := ?_
      groups := h.groups
      clean := h.clean }
  · intro y hy
    rw [hbound, if_neg]
    exact fun hmem => hy (htidy.groupOf_subset hx y hmem)
  · intro y hy b v hby hv
    rw [hbound] at hv
    split at hv
    next hmem =>
      cases hv
      have hgroup : y ∈ s.groups.groupOf x := by
        rcases List.mem_cons.mp hmem with rfl | hmem
        · exact s.groups.mem_groupOf_self y
        · exact hmem
      obtain ⟨t', ht', hsame⟩ := (h.tied_of_mem_groupOf hM hx hgroup hax hby).bound ht
      refine ⟨t', ht', ?_⟩
      have hlike' : Like M.pairing.type M.graph s.graph t' u :=
        hsame.trans hlike fun heq hT => heq ▸ hT
      exact hlike'.grows (.refl _) hgrows
    next =>
      obtain ⟨t', ht', hold⟩ := h.values y hy hby hv
      exact ⟨t', ht', hold.grows (.refl _) hgrows⟩

theorem join (hM : M.Closed V) (hx : x ∈ V) (hy : y ∈ V)
    (hax : M.pairing.symbol a x) (hby : M.pairing.symbol b y) (htied : M.graph.Tied a b) :
    (s.join x y).Mirrored M V E := by
  by_cases hin : y ∈ s.groups.groupOf x
  · have heq : s.join x y = s := by rw [State.join, Groups.join_eq_self hin]
    rwa [heq]
  have hpartner : ∀ {z c}, z ∈ s.groups.groupOf x ++ s.groups.groupOf y → M.pairing.symbol c z →
      M.graph.Tied c a := by
    intro z c hz hcz
    rcases List.mem_append.mp hz with hz | hz
    · exact h.tied_of_mem_groupOf hM hx hz hax hcz
    · exact (h.tied_of_mem_groupOf hM hy hz hby hcz).trans htied.symm
  refine { h with groups := ?_, names := h.names, values := h.values, typed := h.typed,
                  sizeless := h.sizeless, plain := h.plain }
  intro group hgroup z hz z' hz' c c' hcz hcz'
  rcases (Groups.mem_join_groups hin).mp hgroup with rfl | ⟨hold, -, -⟩
  · exact (hpartner hz hcz).trans (hpartner hz' hcz').symm
  · exact h.groups group hold z hz z' hz' hcz hcz'

theorem unify (hM : M.Closed V) (htidy : s.Tidy V D ts)
    (hx : s.Sound V D x) (hy : s.Sound V D y) (hax : M.pairing.symbol a x)
    (hby : M.pairing.symbol b y) (htied : M.graph.Tied a b) {unified : Bool}
    (hu : s.unify x y = .ok (unified, s')) : unified = true ∧ s'.Mirrored M V E := by
  refine ⟨h.unified htidy.graph hax hby htied hu, ?_⟩
  rcases htidy.unify_cases hx hy with
    ⟨unified', hu', -⟩ | ⟨z, w, t, hzw, hz, hnone, hw, hu'⟩ | ⟨hxV, hyV, -, -, -, hu'⟩
  · cases hu.symm.trans hu'
    exact h
  · cases hu.symm.trans hu'
    rcases hzw with ⟨rfl, rfl⟩ | ⟨rfl, rfl⟩
    · obtain ⟨u, hbu, hlike⟩ := h.bound htidy.graph hby hw
      obtain ⟨t', hat, hsame⟩ := htied.bound hbu
      exact h.take hM htidy hz hnone hax hat (hsame.trans hlike fun heq hT => heq ▸ hT)
    · obtain ⟨u, hau, hlike⟩ := h.bound htidy.graph hax hw
      obtain ⟨t', hbt, hsame⟩ := htied.symm.bound hau
      exact h.take hM htidy hz hnone hby hbt (hsame.trans hlike fun heq hT => heq ▸ hT)
  · cases hu.symm.trans hu'
    exact h.join hM hxV hyV hax hby htied

theorem congr (hgraph : s'.graph = s.graph)
    (hgroups : s'.groups.groups = s.groups.groups) (hscope : s'.scope = s.scope)
    (htyped : s'.typed = s.typed)
    (hclean : M.Faultless E → s.diagnostics = [] → s'.diagnostics = []) : s'.Mirrored M V E where
  paired := hgraph ▸ h.paired
  sizeless := hgraph ▸ h.sizeless
  plain := hgraph ▸ h.plain
  names := hscope ▸ h.names
  typed := fun hsymbol => h.typed (by rwa [typeOf?, htyped] at hsymbol)
  values := hgraph ▸ h.values
  groups := hgroups ▸ h.groups
  clean := fun hfaultless => hclean hfaultless (h.clean hfaultless)

theorem undisturbed (hs : s.Undisturbed s')
    (hclean : M.Faultless E → s.diagnostics = [] → s'.diagnostics = []) : s'.Mirrored M V E :=
  h.congr hs.graph (by rw [hs.groups]) hs.scope hs.typed hclean

end Mirrored

/-- A state of a run is reflected in a model, and so is all that is due and all that waits. -/
structure Reflected (M : Model) (V : List SymbolId) (E : List Expr) (s : State) (ts : List Task) :
    Prop extends s.Mirrored M V E, s.Throughout (M.Serves E s.graph) ts

namespace Reflected

variable {origin : Span}

theorem unify_initialise (h : s.Reflected M V E (.typed (.initialise x origin) y :: rest))
    (hM : M.Closed V)
    (htidy : s.Tidy V D (.typed (.initialise x origin) y :: rest)) {unified : Bool}
    (hu : s.unify x y = .ok (unified, s')) : unified = true ∧ s'.Mirrored M V E := by
  obtain ⟨hvalid, hsound⟩ := htidy.tasks _ List.mem_cons_self
  obtain ⟨e, hinitialises, v, hv, hpair⟩ := h.tasks _ List.mem_cons_self
  obtain ⟨a, hax⟩ := hM.partner x hvalid
  have htied := hM.tied hinitialises hax hv
  exact h.toMirrored.unify hM htidy (htidy.sound_value hvalid) hsound hax hpair htied hu

theorem compare {expected : SymbolId}
    (h : s.Reflected M V E (.bound (.compare expected origin) t :: rest)) (hM : M.Closed V)
    (htidy : s.Tidy V D (.bound (.compare expected origin) t :: rest)) :
    (s.onBound (.compare expected origin) t).2.Mirrored M V E := by
  obtain ⟨⟨hbound, hV, -⟩, -⟩ := htidy.tasks _ List.mem_cons_self
  obtain ⟨symbol, hsymbol, e, hexpects, v, hv, hpair⟩ := h.tasks _ List.mem_cons_self
  obtain ⟨t', ht', hlike⟩ := h.bound htidy.graph hpair hsymbol
  simp only [State.onBound]
  split
  next => exact h.toMirrored
  next hdiffers =>
    refine h.toMirrored.undisturbed (undisturbed_mismatch ..) fun hfaultless => ?_
    obtain ⟨y, hy, hsame⟩ := hfaultless.expected hexpects hv ht'
    have heq := h.paired.sameType_eq hM.comparable htidy.graph (h.comparable htidy.graph) hy hbound
      hV hlike
    exact absurd (heq.trans hsame) hdiffers

theorem mirrored_step (h : s.Reflected M V E (task :: rest)) (hM : M.Closed V)
    (htidy : s.Tidy V D (task :: rest)) (hE : Inferable E) (hturn : Turn E s task new s')
    (hs : s.step task = .ok (new, s')) : s'.Mirrored M V E := by
  have htask := h.tasks _ List.mem_cons_self
  have hvalid := htidy.tasks _ List.mem_cons_self
  cases hturn with
  | @verdict x w hx hw _ _ hafter =>
    obtain ⟨v, hv, hverdicts⟩ := h.verdict hM hE htidy.graph hx hw
    have hvoice : s.Mirrored M V E → (s.voice x.span w.fault).Mirrored M V E := fun h =>
      h.undisturbed (undisturbed_pronounce s ⟨x.id, x.span⟩ w) fun hfaultless hclean => by
        show (s.pronounce ⟨x.id, x.span⟩ w).2.diagnostics = []
        rw [diagnostics_pronounce, hclean, hverdicts.fault, hfaultless.readings x hx v hv]
        rfl
    rw [hafter]
    exact (hvoice h.toMirrored).congr rfl rfl rfl rfl fun _ => id
  | @record node symbol hrecord hafter =>
    subst hrecord
    obtain ⟨e, he, hid, hreflects⟩ := htask
    obtain ⟨-, rfl⟩ := record_eq hafter
    refine { h.toMirrored with typed := fun {n a} ha => ?_, names := h.names, values := h.values,
                               sizeless := h.sizeless, plain := h.plain }
    rw [typeOf?, List.lookup_cons] at ha
    split at ha
    next heq =>
      cases ha
      exact ⟨e, he, hid.trans (beq_iff_eq.mp heq).symm, hreflects⟩
    next => exact h.typed ha
  | pass hrecords _ _ _ _ hquiet =>
    cases move_step hs with
    | infer e =>
      refine h.toMirrored.undisturbed (undisturbed_infer s e) fun _ hclean => ?_
      exact (hquiet rfl).trans hclean
    | @bound next t =>
      cases next with
      | select | deliver =>
        refine h.toMirrored.undisturbed (undisturbed_onBound ..) fun _ hclean => ?_
        exact (hquiet rfl).trans hclean
      | compare => exact h.compare hM htidy
      | observe => exact hvalid.1.elim
    | initialise hu => exact (h.unify_initialise hM htidy hu).2
    | record => exact (List.cons_ne_nil _ _ hrecords).elim
    | mismatch => exact htask.elim
    | actUnify | actBound => exact hvalid.elim
    | _ => exact h.toMirrored.congr rfl rfl rfl rfl fun _ => id

theorem serves_of_source (h : s.Reflected M V E (task :: rest)) (hM : M.Closed V)
    (htidy : s.Tidy V D (task :: rest)) (hE : Inferable E) (hturn : Turn E s task new s')
    (hs : s.step task = .ok (new, s')) (hsource : task.isSource) :
    ∀ u ∈ new, M.Serves E s'.graph u := by
  have hvalid := htidy.tasks _ List.mem_cons_self
  cases hturn with
  | @verdict x w hx hw _ hnew =>
    obtain ⟨v, hv, hverdicts⟩ := h.verdict hM hE htidy.graph hx hw
    rw [hnew]
    exact List.forall_mem_singleton.mpr ⟨x, hx, rfl, v, hv, hverdicts.symbol⟩
  | record hrecord =>
    subst hrecord
    exact hsource.elim
  | pass _ hnone =>
    intro u hu
    have hrecord : ∀ node symbol, u ≠ .record node symbol := by
      rintro node symbol rfl
      exact absurd (hnone ▸ mem_records.mpr hu) List.not_mem_nil
    cases move_step hs with
    | infer =>
      cases opens_of_mem_infer hu with
      | verdict => exact (hrecord _ _ rfl).elim
      | _ => trivial
    | bound =>
      rcases of_mem_onBound hu with ⟨node, symbol, rfl⟩ | ⟨tag, acts, a, symbol, rfl, -⟩
      · exact (hrecord _ _ rfl).elim
      · exact hvalid.1.elim
    | initialise hunify =>
      obtain ⟨rfl, -⟩ := h.unify_initialise hM htidy hunify
      rw [List.mem_singleton.mp hu]
      trivial
    | copy => exact (hrecord _ _ (List.mem_singleton.mp hu)).elim
    | observe => exact hvalid.1.elim
    | actInfer | actRecord | actPend | actPendType | actUnify | actBound => exact hvalid.elim
    | _ => exact hsource.elim

/-- A step of a run that is reflected in a model does not lead out of it. -/
theorem step (h : s.Reflected M V E (task :: rest)) (hM : M.Closed V)
    (htidy : s.Tidy V D (task :: rest)) (hd : s.Delivering (task :: rest))
    (hp : s.Provenance E (task :: rest)) (hs : s.step task = .ok (new, s')) :
    s'.Reflected M V E (new ++ rest) := by
  have hE := hp.toInferable
  have hturn := hp.turn hd hs
  have hmirrored := h.mirrored_step hM htidy hE hturn hs
  have hpasses : PassesOn (M.Serves E s.graph) (M.Serves E s'.graph) s s' :=
    { later := fun hserves => hserves.grows (advances_step hs).grows
      told := fun hawaits hsymbol => by
        obtain ⟨e, he, hid, hreflects⟩ := hmirrored.typed hsymbol
        exact hawaits.tells hE he hid hreflects
      shown := fun hasks ht => ⟨_, ht, hasks⟩
      resolve := id
      wake := fun _ => trivial
      settle := trivial }
  exact ⟨hmirrored, h.toThroughout.step hs hpasses (h.serves_of_source hM htidy hE hturn hs)⟩

end Reflected

/-- Between two runs, a state comes of the expressions of the module and is reflected in a model. -/
structure Follows (M : Model) (V : List SymbolId) (E : List Expr) (s : State) : Prop where
  provenance : s.Provenance E []
  reflected : s.Reflected M V E []

namespace Follows

theorem run (h : s.Follows M V E) (hM : M.Closed V) (hready : s.Ready V D ts)
    (htraced : ∀ task ∈ ts, s.Traced E task) (hserves : ∀ task ∈ ts, M.Serves E s.graph task)
    (hrun : s.run ts = (s', .ok ())) : s'.Follows M V E := by
  have hstart : s.Provenance E ts := { h.provenance with tasks := htraced }
  have hdone := run_keeps (P := fun s₁ ts₁ => s₁.Ready V D ts₁ ∧ s₁.Provenance E ts₁ ∧
    s₁.Reflected M V E ts₁) ?_ s ts ⟨hready, hstart,
    h.reflected.toMirrored, h.reflected.waiting, h.reflected.blocked, hserves⟩ hrun
  · exact ⟨hdone.2.1, hdone.2.2⟩
  · rintro s₁ task rest new s₂ ⟨hready₁, hprovenance, hreflected⟩ hs
    obtain ⟨new', s₂', hs', hready₂⟩ := hready₁.step
    cases hs.symm.trans hs'
    exact ⟨hready₂, hprovenance.step hs,
      hreflected.step hM hready₁.tidy hready₁.linear.toDelivering hprovenance hs⟩

theorem unify (h : s.Follows M V E) (hM : M.Closed V) (hready : s.Ready V D [])
    (hx : s.Sound V D x) (hy : s.Sound V D y) (hax : M.pairing.symbol a x)
    (hby : M.pairing.symbol b y) (htied : M.graph.Tied a b) {unified : Bool}
    (hu : Inference.unify s x y = (s', .ok unified)) : s'.Follows M V E := by
  obtain ⟨s₁, hfirst, hrun⟩ := exists_of_unify_ok hu
  obtain ⟨-, hmirrored⟩ := h.reflected.toMirrored.unify hM hready.tidy hx hy hax hby htied hfirst
  have hcarries := advances_unify hfirst
  have hready₁ := hready.settling hx hy hfirst
  obtain ⟨graph, groups, -, rfl⟩ := unify_eq hfirst
  have hprovenance : Provenance E { s with graph := graph, groups := groups } [] :=
    h.provenance.mono (.of_eq rfl hcarries.grows rfl) rfl rfl rfl
  have hreflected : Reflected M V E { s with graph := graph, groups := groups } [] :=
    ⟨hmirrored, h.reflected.waiting, h.reflected.blocked, nofun⟩
  exact Follows.run ⟨hprovenance, hreflected⟩ hM hready₁ (by simp [Traced])
    (by simp [Model.Serves]) hrun

end Follows
end State
end Binder.Inference
