import Binder.Proofs.Module.Construction
import Binder.Proofs.Unify.Grouping

/-! Finishing builders. Making the type of a builder binds the builder's symbol, of which inference
takes no notice, because only values are grouped or waited for. Once a builder and all builders
within it are finished, it is outermost among the open ones no more. -/
namespace Binder

open Binder.Tree (Expr Mark)

namespace Inference

variable {V : List SymbolId} {s : State} {symbol : SymbolId}

/-- Tasks that change nothing are worked off without effect. -/
theorem State.run_idle {ts : List Task} (h : ∀ task ∈ ts, s.step task = .ok ([], s)) :
    s.run ts = (s, .ok ()) := by
  induction ts with
  | nil => rw [State.run]
  | cons task ts ih =>
    rw [State.run]
    split
    next new s' hs =>
      cases (h task List.mem_cons_self).symm.trans hs
      exact ih fun task htask => h task (List.mem_cons_of_mem _ htask)
    next e hs => cases (h task List.mem_cons_self).symm.trans hs

theorem State.Quiet.settleBound_eq (h : s.Quiet V) (hV : symbol ∉ V) :
    s.settleBound symbol = s := by
  have hgroup : s.groups.groupOf symbol = [symbol] := by
    rcases s.groups.groupOf_cases symbol with hmem | ⟨hsingle, -⟩
    · exact absurd (h.members _ hmem symbol (s.groups.mem_groupOf_self symbol)) hV
    · exact hsingle
  cases ht : s.graph.bound? symbol with
  | none => simp only [State.settleBound, Groups.settleBound, ht]
  | some t =>
    have hnot : ¬ s.graph.isUnbound symbol := by
      rw [TypeGraph.isUnbound_iff, ht]
      simp
    have hspread : s.graph.bindAll t [symbol] = (s.graph, []) := by
      rw [TypeGraph.bindAll, if_neg hnot, TypeGraph.bindAll]
    simp only [State.settleBound, Groups.settleBound, ht, hgroup, Groups.spread, hspread,
      List.append_nil]

theorem State.Quiet.step_wake (h : s.Quiet V) (hV : symbol ∉ V) :
    s.step (.wake symbol) = .ok ([], s) := by
  have hne : ∀ w ∈ s.blocked, w.1 ≠ symbol := by
    rintro w hw rfl
    exact hV (h.blocked w hw)
  have hnone : s.blocked.filter (fun w => w.1 = symbol) = [] :=
    List.filter_eq_nil_iff.mpr fun w hw => by simpa using hne w hw
  have hall : s.blocked.filter (fun w => !decide (w.1 = symbol)) = s.blocked :=
    List.filter_eq_self.mpr fun w hw => by simpa using hne w hw
  simp only [State.step, State.wake, hnone, hall]
  split <;> rfl

theorem State.Quiet.step_settle (h : s.Quiet V) : s.step .settle = .ok ([], s) := by
  simp [State.step, State.settle, h.settled]

theorem State.Quiet.bound_eq (h : s.Quiet V) (hV : symbol ∉ V) :
    Inference.bound s symbol = (s, .ok ()) := by
  rw [Inference.bound, h.settleBound_eq hV]
  apply State.run_idle
  intro task htask
  rcases List.mem_cons.mp htask with rfl | htask
  · exact h.step_wake hV
  · rw [List.mem_singleton.mp htask]
    exact h.step_settle

end Inference

namespace Build

open Context

variable {V : List SymbolId} {roots : List BuilderId} {c c' : Context} {i : Nat} {b : TypeBuilder}
  {id : BuilderId}

def finished (c : Context) (i : Nat) (b : TypeBuilder) : Context :=
  (c.setGraph (c.graph.newType b.made).2).setBuilders (c.builders.setIfInBounds i b.emptied)

theorem nestedOf_finished (hb : c.builders[i]? = some b) :
    nestedOf (finished c i b).builders = nestedOf c.builders :=
  nestedOf_set hb rfl

theorem bound?_finished (i : Nat) (hsymbol : c.graph.HasSymbol b.symbol)
    (hopen : c.graph.bound? b.symbol = none) (s : SymbolId) :
    (finished c i b).graph.bound? s =
      if s = b.symbol then some ⟨c.graph.types.size⟩ else c.graph.bound? s :=
  TypeGraph.bound?_newType_of_isUnbound (d := b.made)
    (TypeGraph.isUnbound_iff.mpr ⟨hsymbol, hopen⟩) s

theorem coherent_finished (h : c.Coherent V) (hb : c.builders[i]? = some b)
    (hopen : c.graph.bound? b.symbol = none) :
    Resolves V c (finished c i b) ∧ (finished c i b).Coherent V := by
  obtain ⟨hkind, hV, -, hsymbol⟩ := h.builder hb
  have hunbound : c.graph.isUnbound b.made.symbol := TypeGraph.isUnbound_iff.mpr ⟨hsymbol, hopen⟩
  have hmade : b.made.kind = .record := hkind
  obtain ⟨hr, hcoherent⟩ := h.newType hunbound hV
    (fun s hs => h.uses hb (TypeBuilder.mem_uses_of_made hkind hs))
    (fun e he => by rw [hmade] at he; cases he) (by rw [hmade]; nofun)
    (fun hsignature => h.offered hb hsignature) (.inr ⟨i, b, hb, rfl⟩)
    (fun hx heq => by cases h.distinct hx hb heq; cases hb.symm.trans hx; rfl)
  have hbecomes : Becomes V (c.setGraph (c.graph.newType b.made).2) b b.emptied :=
    { symbol := rfl
      kind := rfl
      container := rfl
      uses := fun s hs => hr.known (h.uses hb (TypeBuilder.mem_uses_of_emptied hs))
      offered := fun hsignature => nomatch hsignature }
  have hset : Resolves V _ (finished c i b) := resolves_set hb rfl rfl
  have hlaid := hcoherent.laid_of_grows hb hset.graph hset.names hset.builders id
  have hbound : (finished c i b).graph.bound? b.symbol ≠ none := by
    rw [bound?_finished i hsymbol hopen, if_pos rfl]
    exact Option.some_ne_none _
  refine ⟨hr.trans hset, hcoherent.set hb hbecomes ?_
    ⟨hlaid.names, hlaid.nested, fun hnone => absurd hnone hbound, hlaid.made⟩⟩
  exact h.forest.congr (nestedOf_finished hb) (by simp)

theorem finishType_of_missing (hb : c.builders[id.index]? = none) : finishType id c = .ok () c := by
  simp only [finishType, get_bind, hb]
  rfl

theorem finishType_of_some (hb : c.builders[id.index]? = some b) :
    finishType id c =
      withInference (fun s => Inference.bound s b.symbol) (finished c id.index b) := by
  have hset : withBuilder id () (fun _ => ((), b.emptied)) (c.setGraph (c.graph.newType b.made).2) =
      .ok () (finished c id.index b) :=
    withBuilder_eq (c := c.setGraph (c.graph.newType b.made).2) hb () _
  simp only [finishType, get_bind, hb]
  exact (bind_of_ok rfl).trans (bind_of_ok hset)

theorem finishType_eq (h : c.inference.Quiet V) (hb : c.builders[id.index]? = some b)
    (hV : b.symbol ∉ V) : finishType id c = .ok () (finished c id.index b) := by
  have hquiet : (finished c id.index b).inference.Quiet V :=
    { members := h.members, blocked := h.blocked, settled := h.settled }
  rw [finishType_of_some hb, withInference, hquiet.bound_eq hV]

/-- What holds while a builder and the builders within it are finished one by one: `rest` and the
builders within the other outermost ones are still open. -/
structure Finishing (V : List SymbolId) (roots : List BuilderId) (c : Context)
    (rest : List BuilderId) (c' : Context) : Prop where
  resolves : Resolves V c c'
  coherent : c'.Coherent V
  nested : nestedOf c'.builders = nestedOf c.builders
  size : c'.builders.size = c.builders.size
  fallbacks : c'.fallbacks = c.fallbacks
  nodup : rest.Nodup
  apart : ∀ y ∈ rest, y.index < c.builders.size ∧ ∀ r ∈ roots, ¬ Within c.builders y r
  open_iff : ∀ {i : Nat} {b : TypeBuilder}, c'.builders[i]? = some b →
    (c'.graph.bound? b.symbol = none ↔ ⟨i⟩ ∈ rest ∨ ∃ r ∈ roots, Within c.builders ⟨i⟩ r)

theorem Finishing.step {y : BuilderId} {rest : List BuilderId}
    (h : Finishing V roots c (y :: rest) c') :
    Ends (finishType y) c' fun _ c'' => Finishing V roots c rest c'' := by
  obtain ⟨hfresh, hnodup⟩ := List.nodup_cons.mp h.nodup
  obtain ⟨hlt, hout⟩ := h.apart y List.mem_cons_self
  obtain ⟨b, hb⟩ : ∃ b, c'.builders[y.index]? = some b :=
    ⟨_, Array.getElem?_eq_getElem (h.size ▸ hlt)⟩
  have hopen := (h.open_iff hb).mpr (.inl List.mem_cons_self)
  obtain ⟨hr, hcoherent⟩ := coherent_finished h.coherent hb hopen
  have hbound := bound?_finished y.index (h.coherent.builder hb).2.2.2 hopen
  refine ⟨(), _, finishType_eq h.coherent.quiet hb (h.coherent.builder hb).2.1, ?_⟩
  refine
    { resolves := h.resolves.trans hr
      coherent := hcoherent
      nested := (nestedOf_finished hb).trans h.nested
      size := Array.size_setIfInBounds.trans h.size
      fallbacks := h.fallbacks
      nodup := hnodup
      apart := fun z hz => h.apart z (List.mem_cons_of_mem y hz)
      open_iff := ?_ }
  intro i x hx
  rw [hbound]
  rcases getElem?_set_cases hx with ⟨rfl, rfl⟩ | ⟨hi, hx⟩
  · refine iff_of_false (by simp [TypeBuilder.emptied]) ?_
    rintro (hmem | ⟨r, hmem, hw⟩)
    · exact hfresh hmem
    · exact hout r hmem hw
  · have hne : x.symbol ≠ b.symbol := fun heq => hi (h.coherent.distinct hx hb heq)
    have hiy : (⟨i⟩ : BuilderId) ≠ y := fun heq => hi (congrArg BuilderId.index heq)
    rw [if_neg hne, h.open_iff hx, List.mem_cons]
    simp [hiy]

theorem finishTypes_ends {r : BuilderId} (h : c.Standing V (r :: roots)) :
    Ends (finishTypes r) c fun _ c' =>
      Resolves V c c' ∧ c'.Standing V roots ∧ c'.fallbacks = c.fallbacks := by
  obtain ⟨hfresh, hnodup⟩ := List.nodup_cons.mp h.nodup
  obtain ⟨hlt, hroot⟩ := h.outermost r List.mem_cons_self
  have hwithin {y : BuilderId} : y ∈ innermostFirst c.builders c.builders.size r ↔
      Within c.builders y r :=
    ⟨within_of_mem_innermostFirst, mem_innermostFirst h.forest (by omega) hlt⟩
  have hstart : Finishing V roots c (innermostFirst c.builders c.builders.size r) c :=
    { resolves := .refl V c
      coherent := h.toCoherent
      nested := rfl
      size := rfl
      fallbacks := rfl
      nodup := nodup_innermostFirst h.forest _ r
      apart := by
        intro y hy
        refine ⟨h.forest.lt_size_of_within (hwithin.mp hy) hlt, fun q hq hw => hfresh ?_⟩
        have hout := (h.outermost q (List.mem_cons_of_mem r hq)).2
        exact h.forest.root_unique hroot hout (hwithin.mp hy) hw ▸ hq
      open_iff := by
        intro i b hb
        rw [h.open_iff hb, hwithin]
        simp }
  refine Ends.bind (Ends.get ?_)
  refine (Ends.forM (fun y rest c' => Finishing.step) _ hstart).mono fun _ c' hdone => ?_
  refine ⟨hdone.resolves, ?_, hdone.fallbacks⟩
  refine { toCoherent := hdone.coherent, nodup := hnodup, outermost := ?_, open_iff := ?_ }
  · intro q hq
    rw [hdone.size]
    simp only [NestedIn, hdone.nested]
    exact h.outermost q (List.mem_cons_of_mem r hq)
  · intro i b hb
    rw [hdone.open_iff hb]
    simp [within_congr hdone.nested]

end Build
end Binder
