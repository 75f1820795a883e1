import Binder.Proofs.Module.Concluding

/-! The turns of values. Values are inferred one after another, in the order of their definitions. At
its turn a value first has its type resolved, if one is ascribed to it; only then the context gets new
symbols and types. -/
namespace Binder

open Binder.Tree (Expr)
open Inference (Task)

namespace Context

variable {V : List SymbolId} {c c' i m n r f : Context} {v w : ModuleValue} {bindings rest : List Expr}

/-- It is the turn of a value: the values before it are inferred. -/
def Turn (i : Context) (v : ModuleValue) (m : Context) : Prop :=
  ∃ before after, i.values = before ++ v :: after ∧ before.forM Build.inferValue i = .ok () m

/-- What is ascribed to a value, if anything is, is resolved. -/
inductive Readies (v : ModuleValue) (m : Context) : Context → Prop
  | bare : v.definition.ascription = none → Readies v m m
  | ascribed {a : Expr} {x : SymbolId} {r : Context} : v.definition.ascription = some a →
      Build.resolveType none a m = .ok x r → Readies v m r

theorem Readies.unique (h : Readies v m r) (h' : Readies v m n) : n = r := by
  cases h with
  | bare hnone =>
    cases h' with
    | bare => rfl
    | ascribed ha => cases hnone.symm.trans ha
  | ascribed ha hr =>
    cases h' with
    | bare hnone => cases hnone.symm.trans ha
    | ascribed ha' hr' =>
      cases ha.symm.trans ha'
      cases hr.symm.trans hr'
      rfl

end Context

namespace Build

open Context

variable {V : List SymbolId} {c c' i m r f : Context} {v : ModuleValue} {rest : List Expr}

/-- At its turn a value is made ready, and then nothing but the state of inference changes. -/
theorem inferValue_readies (hv : v.member.type ∈ V)
    (h : m.Valuing V (v.definition.nodes ++ rest)) :
    Ends (inferValue v) m fun _ c => c.Valuing V rest ∧
      ∃ r, Readies v m r ∧ Progresses r c := by
  apply (inferValue_ends hv h).mono
  rintro _ _ ⟨b, s, hserved, rfl⟩
  refine ⟨hserved.valuing, ?_⟩
  obtain ⟨hascribed, -, -, hadvances, -⟩ := hserved
  cases hascribed with
  | bare ha => exact ⟨m, .bare ha, s, hadvances, rfl⟩
  | @ascribed _ _ r _ _ ha hresolve _ _ _ _ hadvances' =>
    exact ⟨r, .ascribed ha hresolve, s, hadvances'.trans hadvances, rfl⟩

theorem exists_of_forM_append {α : Type} {g : α → Build Unit} {l l' : List α}
    (h : (l ++ l').forM g c = .ok () f) : ∃ m, l.forM g c = .ok () m ∧ l'.forM g m = .ok () f := by
  have hsplit : (l ++ l').forM g = (do l.forM g; l'.forM g) := by
    simp only [List.forM_eq_forM, List.forM_append]
  rw [hsplit] at h
  obtain ⟨_, m, hm, hf⟩ := exists_of_bind_ok h
  exact ⟨m, hm, hf⟩

end Build

namespace Context

variable {V : List SymbolId} {c c' i m n r f : Context} {v w : ModuleValue} {bindings rest : List Expr}

theorem Turn.mem (h : i.Turn v m) : v ∈ i.values := by
  obtain ⟨before, after, hvalues, -⟩ := h
  simp [hvalues]

theorem Turn.unique (hnames : (i.values.map fun v => v.definition.name).Nodup) (h : i.Turn v m)
    (h' : i.Turn w n) (hname : w.definition.name = v.definition.name) : w = v ∧ n = m := by
  have heq : w = v := List.inj_on_of_nodup_map hnames h'.mem h.mem hname
  subst heq
  obtain ⟨before, after, hvalues, hm⟩ := h
  obtain ⟨before', after', hvalues', hn⟩ := h'
  have hnodup : (before ++ w :: after).Nodup := hvalues ▸ hnames.of_map
  obtain ⟨-, hafter, hdisjoint⟩ := List.nodup_append.mp hnodup
  have hbefore : w ∉ before := fun hmem => hdisjoint w hmem w List.mem_cons_self rfl
  obtain ⟨rfl, -, -⟩ := (List.append_cons_inj_of_notMem hbefore (List.nodup_cons.mp hafter).1).mp
    (hvalues.symm.trans hvalues')
  cases hm.symm.trans hn
  exact ⟨rfl, rfl⟩

/-- A run over the values of a module whose types are made. -/
structure Values (bindings : List Expr) (i f : Context) : Prop where
  furnished : i.Furnished bindings
  once : ∀ n, Tree.count n (Tree.preorderOf bindings) ≤ 1
  run : i.values.forM Build.inferValue i = .ok () f

namespace Values

theorem valueSymbol_mem (hv : v ∈ i.values) : v.member.type ∈ i.valueSymbols :=
  List.mem_map_of_mem hv

/-- What is known when it is the turn of a value, and what will come of the context. -/
structure At (i f : Context) (v : ModuleValue) (m r : Context) : Prop where
  readies : Readies v m r
  infers : Infers i m
  valuing : ∃ rest, m.Valuing i.valueSymbols (v.definition.nodes ++ rest)
  resolves : Resolves i.valueSymbols m r
  resolvable : r.Resolvable i.valueSymbols []
  expecting : r.Expecting i.valueSymbols
  later : Infers r f

theorem run_infers {l : List ModuleValue} (hl : ∀ v ∈ l, v ∈ i.values)
    (h : m.Valuing i.valueSymbols ((l.map ModuleValue.definition).flatMap Definition.nodes ++ rest))
    (hrun : l.forM Build.inferValue m = .ok () n) : Infers m n ∧ n.Valuing i.valueSymbols rest := by
  obtain ⟨hvaluing, hinfers, -⟩ := (Build.forM_inferValue_infers l
    (fun v hv => valueSymbol_mem (hl v hv)) h).of_eq hrun
  exact ⟨hinfers, hvaluing⟩

variable (h : Values bindings i f)
include h

theorem split {before after : List ModuleValue} (hvalues : i.values = before ++ v :: after) (hm : before.forM Build.inferValue i = .ok () m) :
    ∃ r n rest, At i f v m r ∧ Build.inferValue v m = .ok () n ∧ Progresses r n ∧
      n.Valuing i.valueSymbols ((after.map ModuleValue.definition).flatMap Definition.nodes ++ rest) := by
  have hmem : ∀ w ∈ before ++ v :: after, w ∈ i.values := fun w hw => hvalues ▸ hw
  have hvaluing := h.furnished.valuing h.once
  rw [hvalues, List.map_append, List.map_cons, List.flatMap_append, List.flatMap_cons,
    List.append_assoc, List.append_assoc] at hvaluing
  obtain ⟨hinfers, hvaluing₁⟩ := run_infers (fun w hw => hmem w (by simp [hw])) hvaluing hm
  have hrun := h.run
  rw [hvalues] at hrun
  obtain ⟨_, hm', hrest⟩ := Build.exists_of_forM_append hrun
  cases hm.symm.trans hm'
  obtain ⟨_, n, hn, hafter⟩ := Build.exists_of_bind_ok hrest
  have hv : v.member.type ∈ i.valueSymbols := valueSymbol_mem (hmem v (by simp))
  obtain ⟨hvaluing₂, r, hreadies, hprogresses⟩ := (Build.inferValue_readies hv hvaluing₁).of_eq hn
  obtain ⟨hlater, -⟩ := run_infers (fun w hw => hmem w (by simp [hw])) hvaluing₂ hafter
  have hresolves : Resolves i.valueSymbols m r ∧ r.Resolvable i.valueSymbols [] ∧
      r.Expecting i.valueSymbols := by
    cases hreadies with
    | bare => exact ⟨.refl _ m, hvaluing₁.resolvable, hvaluing₁.expecting⟩
    | @ascribed a x r _ hresolve =>
      obtain ⟨hresolved, -⟩ := (Build.resolveType_ends a none hvaluing₁.resolvable).of_eq hresolve
      exact ⟨hresolved.resolves, hresolved.resolvable, hresolved.expecting hvaluing₁.expecting⟩
  exact ⟨r, n, _,
    { readies := hreadies
      infers := hinfers
      valuing := ⟨_, hvaluing₁⟩
      resolves := hresolves.1
      resolvable := hresolves.2.1
      expecting := hresolves.2.2
      later := hprogresses.infers.trans hlater }, hn, hprogresses, hvaluing₂⟩

theorem exists_at (ht : i.Turn v m) : ∃ r, At i f v m r := by
  obtain ⟨before, after, hvalues, hm⟩ := ht
  obtain ⟨r, -, -, hat, -⟩ := h.split hvalues hm
  exact ⟨r, hat⟩

theorem exists_turn (hv : v ∈ i.values) : ∃ m, i.Turn v m := by
  obtain ⟨before, after, hvalues⟩ := List.append_of_mem hv
  have hrun := h.run
  rw [hvalues] at hrun
  obtain ⟨m, hm, -⟩ := Build.exists_of_forM_append hrun
  exact ⟨m, before, after, hvalues, hm⟩

/-- What holds at the start and is kept at each turn holds at all turns and in the end. -/
theorem induction {P : List ModuleValue → Context → Prop} (hstart : P [] i)
    (hstep : ∀ {before v after m r n}, i.values = before ++ v :: after → i.Turn v m → At i f v m r →
      Build.inferValue v m = .ok () n → Progresses r n → P before m → P (before ++ [v]) n) :
    P i.values f ∧ ∀ {before v after m}, i.values = before ++ v :: after →
      before.forM Build.inferValue i = .ok () m → P before m := by
  have hall : ∀ before, before <+: i.values → ∀ m, before.forM Build.inferValue i = .ok () m →
      P before m := by
    intro before
    induction before using List.reverseRecOn with
    | nil =>
      intro _ m hm
      cases hm
      exact hstart
    | append_singleton before v ih =>
      rintro ⟨after, hafter⟩ n hn
      have hvalues : i.values = before ++ v :: after := by simpa using hafter.symm
      obtain ⟨m, hm, hlast⟩ := Build.exists_of_forM_append hn
      obtain ⟨r, n', -, hat, hn', hprogresses, -⟩ := h.split hvalues hm
      obtain ⟨_, n'', hv, hdone⟩ := Build.exists_of_bind_ok hlast
      cases hdone
      cases hn'.symm.trans hv
      have hbefore : before <+: i.values := ⟨v :: after, hvalues.symm⟩
      exact hstep hvalues ⟨before, after, hvalues, hm⟩ hat hn' hprogresses (ih hbefore m hm)
  refine ⟨hall _ List.prefix_rfl f h.run, ?_⟩
  intro before v after m hvalues hm
  exact hall before ⟨v :: after, hvalues.symm⟩ m hm

theorem order {q : Context} (ht : i.Turn v m) (hr : Readies v m r)
    (hw : i.Turn w n) (hq : Readies w n q) : (w = v ∧ n = m) ∨ Infers r n ∨ Infers q m := by
  -- the values between two turns are inferred from where the first value is ready
  have hlater : ∀ {before after between v w m n r}, i.values = before ++ v :: (between ++ w :: after) →
      before.forM Build.inferValue i = .ok () m → Readies v m r →
      (before ++ v :: between).forM Build.inferValue i = .ok () n → Infers r n := by
    intro before after between v w m n r hvalues hm hr hn
    obtain ⟨r', n', rest, hat, hn', hprogresses, hvaluing⟩ := h.split hvalues hm
    cases hr.unique hat.readies
    obtain ⟨_, hm', hrest⟩ := Build.exists_of_forM_append hn
    cases hm.symm.trans hm'
    obtain ⟨_, n'', hv, hbetween⟩ := Build.exists_of_bind_ok hrest
    cases hn'.symm.trans hv
    rw [List.map_append, List.flatMap_append, List.append_assoc] at hvaluing
    have hmem : ∀ u ∈ between, u ∈ i.values := fun u hu => by simp [hvalues, hu]
    exact hprogresses.infers.trans (run_infers hmem hvaluing hbetween).1
  obtain ⟨before, after, hvalues, hm⟩ := ht
  obtain ⟨before', after', hvalues', hn⟩ := hw
  rcases List.append_eq_append_iff.mp (hvalues.symm.trans hvalues') with
    ⟨between, rfl, heq⟩ | ⟨between, rfl, heq⟩
  · cases between with
    | nil =>
      cases heq
      rw [List.append_nil] at hn
      cases hm.symm.trans hn
      exact .inl ⟨rfl, rfl⟩
    | cons u between =>
      obtain ⟨rfl, rfl⟩ := List.cons.inj heq
      exact .inr (.inl (hlater hvalues hm hr hn))
  · cases between with
    | nil =>
      cases heq
      rw [List.append_nil] at hm
      cases hm.symm.trans hn
      exact .inl ⟨rfl, rfl⟩
    | cons u between =>
      obtain ⟨rfl, rfl⟩ := List.cons.inj heq
      exact .inr (.inr (hlater hvalues' hn hq hm))

end Values
end Context
end Binder
