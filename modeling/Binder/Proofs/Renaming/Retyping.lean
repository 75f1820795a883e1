import Binder.Proofs.Renaming.Passes
import Mathlib.Logic.Equiv.Basic

/-! Types that are numbered in another order. Finishing a builder only makes a type, so that builders
finished in another order leave the same context, but for the numbers of the types made. -/
namespace Binder

open Binder.Tree (Expr Mark NodeId)

def Renumbering.same : Renumbering := ⟨.refl _, .refl _⟩

theorem Renumbering.expr_same (e : Expr) : same.expr e = e := Tree.Node.map_id e

theorem Renumbering.typeDef_same (d : TypeDef) : same.typeDef d = d := by
  refine same.typeDef_eq_self fun s _ p _ => ?_
  rw [funext expr_same, Option.map_id']

namespace TypeGraph

variable {g g' g'' : TypeGraph} {σ τ : TypeId ↪ TypeId} {ρ : Renumbering}

theorem Renamed.retyped (h : g.Renamed (ρ.retype τ) g') (h' : g'.Renamed (Renumbering.same.retype σ) g'') :
    g.Renamed (ρ.retype (τ.trans σ)) g'' where
  symbols := by
    rw [h'.symbols, h.symbols, Array.map_map]
    congr 1
    funext ⟨name, type⟩
    cases type <;> rfl
  types t := by
    have ht := h'.types (τ t)
    rw [funext Renumbering.typeDef_same, Option.map_id'] at ht
    exact ht.trans (h.types t)
  size := h'.size.trans h.size
  next t ht := by
    have hτ : τ t = t := h.next t ht
    show σ (τ t) = t
    rw [hτ]
    exact h'.next t (h.size ▸ ht)

theorem symbols_newType (d : TypeDef) (i : Nat) : (g.newType d).2.symbols[i]? =
    if i = d.symbol.index then
      (g.symbols[i]?).map fun x => ⟨x.name, x.type.or (some ⟨g.types.size⟩)⟩
    else g.symbols[i]? := by
  simp only [newType]
  cases hx : g.symbols[d.symbol.index]? with
  | none =>
    have hbound : g.isUnbound d.symbol = false := by rw [isUnbound, hx]
    rw [hbound, if_neg Bool.false_ne_true]
    split
    next hi => simp [hi, hx]
    next => rfl
  | some x =>
    obtain ⟨hlt, hget⟩ := Array.getElem?_eq_some_iff.mp hx
    have hunbound : g.isUnbound d.symbol = x.type.isNone := by rw [isUnbound, hx]
    rw [hunbound]
    obtain ⟨name, type⟩ := x
    cases type with
    | none =>
      simp only [Option.isNone_none, if_true, assign, hlt, dif_pos, Array.getElem?_set, hget]
      split
      next hi => simp [← hi, hx]
      next hi => simp [Ne.symm hi]
    | some t =>
      simp only [Option.isNone_some, Bool.false_eq_true, if_false]
      split
      next hi => simp [hi, hx]
      next => rfl

/-- Two types made the other way round have changed their numbers. -/
theorem renamed_newType_swap {d e : TypeDef} (hne : d.symbol ≠ e.symbol)
    (htypes : ∀ {s t}, g.bound? s = some t → g.HasType t) :
    ((g.newType d).2.newType e).2.Renamed
      (Renumbering.same.retype (Equiv.swap ⟨g.types.size⟩ ⟨g.types.size + 1⟩).toEmbedding)
      ((g.newType e).2.newType d).2 := by
  have hsize : ∀ d : TypeDef, (g.newType d).2.types.size = g.types.size + 1 := by
    intro d
    rw [types_newType, Array.size_push]
  have hfix : ∀ t : TypeId, t.index ≠ g.types.size → t.index ≠ g.types.size + 1 →
      Equiv.swap ⟨g.types.size⟩ ⟨g.types.size + 1⟩ t = t := by
    rintro ⟨i⟩ hi hi'
    exact Equiv.swap_apply_of_ne_of_ne (by simpa using hi) (by simpa using hi')
  have hindex : d.symbol.index ≠ e.symbol.index := fun heq => hne (by
    cases hd : d.symbol; cases he : e.symbol; simp_all)
  refine ⟨Array.ext_getElem? fun i => ?_, fun t => ?_, ?_, fun t ht => ?_⟩
  · have hentry : (Renumbering.same.retype (Equiv.swap ⟨g.types.size⟩
        ⟨g.types.size + 1⟩).toEmbedding).entry = fun x => ⟨x.name, x.type.map
          (Equiv.swap ⟨g.types.size⟩ ⟨g.types.size + 1⟩)⟩ := rfl
    rw [Array.getElem?_map, hentry]
    simp only [symbols_newType, hsize]
    cases hx : g.symbols[i]? with
    | none => split <;> split <;> rfl
    | some x =>
      obtain ⟨name, type⟩ := x
      cases type with
      | none =>
        by_cases hd : i = d.symbol.index
        · simp [hd, hindex]
        · by_cases he : i = e.symbol.index
          · simp [he, Ne.symm hindex]
          · simp [hd, he]
      | some t =>
        have hlt : t.index < g.types.size := htypes (s := ⟨i⟩) (by rw [bound?, hx]; rfl)
        have ht := hfix t (by omega) (by omega)
        split <;> split <;> simp [ht]
  · rw [funext Renumbering.typeDef_same, Option.map_id']
    simp only [def?_newType, hsize, Equiv.coe_toEmbedding]
    have hne' : (⟨g.types.size + 1⟩ : TypeId) ≠ ⟨g.types.size⟩ := by simp
    by_cases hd : t = ⟨g.types.size⟩
    · subst hd
      rw [Equiv.swap_apply_left, if_pos rfl, if_neg hne'.symm, if_pos rfl]
    · by_cases he : t = ⟨g.types.size + 1⟩
      · subst he
        rw [Equiv.swap_apply_right, if_neg hne'.symm, if_pos rfl, if_pos rfl]
      · rw [Equiv.swap_apply_of_ne_of_ne hd he, if_neg he, if_neg hd, if_neg he, if_neg hd]
  · simp only [types_newType, Array.size_push]
  · simp only [types_newType, Array.size_push] at ht
    exact hfix t (by omega) (by omega)

end TypeGraph

namespace Context

variable {V U : List SymbolId} {c c' c₁ c₂ c₃ : Context} {a b : BuilderId} {σ σ' : TypeId ↪ TypeId}
  {ρ : Renumbering}

/-- The context in which the type of a builder is made, if there is such a builder. -/
def finishedAt (c : Context) (id : BuilderId) : Context :=
  match c.builders[id.index]? with
  | none => c
  | some b => Build.finished c id.index b

theorem Calm.finishType_eq (h : c.Calm V U) (id : BuilderId) :
    Build.finishType id c = .ok () (c.finishedAt id) := by
  unfold finishedAt
  split
  next hb => exact Build.finishType_of_missing hb
  next b hb => exact Build.finishType_eq h.quiet hb (h.not_mem hb)

theorem Calm.finishedAt (h : c.Calm V U) (id : BuilderId) :
    (c.finishedAt id).Calm V U := by
  unfold Context.finishedAt
  split
  next => exact h
  next b hb => exact h.finished hb

theorem Calm.foldl (h : c.Calm V U) (l : List BuilderId) :
    (l.foldl Context.finishedAt c).Calm V U := by
  induction l generalizing c with
  | nil => exact h
  | cons id l ih => exact ih (h.finishedAt id)

theorem Calm.forM_finishType (h : c.Calm V U) (l : List BuilderId) :
    l.forM Build.finishType c = .ok () (l.foldl Context.finishedAt c) := by
  induction l generalizing c with
  | nil => rfl
  | cons id l ih => exact (Build.bind_of_ok (h.finishType_eq id)).trans (ih (h.finishedAt id))

theorem nestedOf_finishedAt (c : Context) (id : BuilderId) :
    nestedOf (c.finishedAt id).builders = nestedOf c.builders := by
  unfold finishedAt
  split
  next => rfl
  next b hb => exact Build.nestedOf_finished hb

theorem nestedOf_foldl (c : Context) (l : List BuilderId) :
    nestedOf (l.foldl finishedAt c).builders = nestedOf c.builders := by
  induction l generalizing c with
  | nil => rfl
  | cons id l ih => exact (ih (c.finishedAt id)).trans (nestedOf_finishedAt c id)

/-- The contexts differ in the numbers of types alone, and not in those that inference knows. -/
structure Retyped (σ : TypeId ↪ TypeId) (c c₁ : Context) : Prop where
  same : c₁ = c.setGraph c₁.graph
  graph : c.graph.Renamed (Renumbering.same.retype σ) c₁.graph
  slots : ∀ {call : Nat} {gathering : Inference.Gathering},
    c.inference.calls[call]? = some gathering → ∀ {t}, some t ∈ gathering.slots → σ t = t

namespace Retyped

theorem refl (c : Context) : Retyped (.refl _) c c where
  same := rfl
  graph := by
    refine ⟨?_, fun t => ?_, rfl, fun _ _ => rfl⟩
    · have hentry : (Renumbering.same.retype (.refl _)).entry = id := by
        funext ⟨name, type⟩
        cases type <;> rfl
      rw [hentry, Array.map_id]
    · rw [funext Renumbering.typeDef_same, Option.map_id']
      rfl
  slots _ _ _ := rfl

theorem trans (h : Retyped σ c₁ c₂) (h' : Retyped σ' c₂ c₃) : Retyped (σ.trans σ') c₁ c₃ where
  same := by
    rw [h'.same, h.same]
    rfl
  graph := h.graph.retyped h'.graph
  slots := by
    intro call gathering hcall t ht
    have hcall' : c₂.inference.calls[call]? = some gathering := by
      rw [h.same]
      exact hcall
    show σ' (σ t) = t
    rw [h.slots hcall ht, h'.slots hcall' ht]

theorem finishedAt (h : Retyped σ c c₁) (id : BuilderId) :
    Retyped σ (c.finishedAt id) (c₁.finishedAt id) := by
  obtain ⟨g, rfl⟩ : ∃ g, c₁ = c.setGraph g := ⟨_, h.same⟩
  unfold Context.finishedAt
  have hbuilders : (c.setGraph g).builders = c.builders := rfl
  rw [hbuilders]
  split
  next => exact h
  next b hb =>
    have hgraph := h.graph.newType b.made
    rw [Renumbering.typeDef_same] at hgraph
    exact ⟨rfl, hgraph, h.slots⟩

theorem foldl (h : Retyped σ c c₁) (l : List BuilderId) :
    Retyped σ (l.foldl Context.finishedAt c) (l.foldl Context.finishedAt c₁) := by
  induction l generalizing c c₁ with
  | nil => exact h
  | cons id l ih => exact ih (h.finishedAt id)

end Retyped

/-- Which of two builders is finished first only decides on numbers. -/
theorem Calm.exists_retyped_swap (h : c.Calm V U) (a b : BuilderId) :
    ∃ σ, Retyped σ ((c.finishedAt a).finishedAt b) ((c.finishedAt b).finishedAt a) := by
  by_cases hab : a = b
  · subst hab
    exact ⟨_, .refl _⟩
  have hindex : a.index ≠ b.index := fun heq => hab (by cases a; cases b; cases heq; rfl)
  cases ha : c.builders[a.index]? with
  | none =>
    have hstay : c.finishedAt a = c := by rw [Context.finishedAt, ha]
    have hstay' : (c.finishedAt b).finishedAt a = c.finishedAt b := by
      have hnone : (c.finishedAt b).builders[a.index]? = none := by
        unfold Context.finishedAt
        split
        next => exact ha
        next y hy => exact (Array.getElem?_setIfInBounds_ne (Ne.symm hindex)).trans ha
      rw [Context.finishedAt, hnone]
    rw [hstay, hstay']
    exact ⟨_, .refl _⟩
  | some x =>
    have hfinished : c.finishedAt a = Build.finished c a.index x := by rw [Context.finishedAt, ha]
    cases hb : c.builders[b.index]? with
    | none =>
      have hstay : c.finishedAt b = c := by rw [Context.finishedAt, hb]
      have hstay' : (c.finishedAt a).finishedAt b = c.finishedAt a := by
        have hnone : (c.finishedAt a).builders[b.index]? = none := by
          rw [hfinished]
          exact (Array.getElem?_setIfInBounds_ne hindex).trans hb
        rw [Context.finishedAt, hnone]
      rw [hstay, hstay']
      exact ⟨_, .refl _⟩
    | some y =>
      have hfinished' : c.finishedAt b = Build.finished c b.index y := by
        rw [Context.finishedAt, hb]
      have hx : (Build.finished c b.index y).builders[a.index]? = some x :=
        (Array.getElem?_setIfInBounds_ne (Ne.symm hindex)).trans ha
      have hy : (Build.finished c a.index x).builders[b.index]? = some y :=
        (Array.getElem?_setIfInBounds_ne hindex).trans hb
      have hsymbols : x.symbol ≠ y.symbol := h.symbol_ne ha hb hindex
      refine ⟨(Equiv.swap ⟨c.graph.types.size⟩ ⟨c.graph.types.size + 1⟩).toEmbedding, ?_⟩
      rw [hfinished, hfinished', Context.finishedAt, hy, Context.finishedAt, hx]
      refine ⟨?_, TypeGraph.renamed_newType_swap hsymbols h.types, ?_⟩
      · have hcomm : (c.builders.setIfInBounds b.index y.emptied).setIfInBounds a.index x.emptied =
            (c.builders.setIfInBounds a.index x.emptied).setIfInBounds b.index y.emptied :=
          Array.setIfInBounds_comm _ _ (Ne.symm hindex)
        exact congrArg (fun bs => (c.setGraph
          ((c.graph.newType y.made).2.newType x.made).2).setBuilders bs) hcomm
      · intro call gathering hcall t ht
        have hlt : t.index < c.graph.types.size := h.slots hcall ht
        apply Equiv.swap_apply_of_ne_of_ne
        · rintro rfl
          exact Nat.lt_irrefl _ hlt
        · rintro rfl
          exact Nat.not_succ_lt_self hlt

/-- The order in which builders are finished only decides on numbers. -/
theorem Calm.exists_retyped (h : c.Calm V U) {l l' : List BuilderId}
    (hl : l.Perm l') : ∃ σ, Retyped σ (l.foldl Context.finishedAt c) (l'.foldl Context.finishedAt c) := by
  induction hl generalizing c with
  | nil => exact ⟨_, .refl _⟩
  | cons a _ ih => exact ih (h.finishedAt a)
  | swap a b l =>
    obtain ⟨σ, hσ⟩ := h.exists_retyped_swap b a
    exact ⟨σ, hσ.foldl l⟩
  | trans _ _ ih ih' =>
    obtain ⟨σ, hσ⟩ := ih h
    obtain ⟨σ', hσ'⟩ := ih' h
    exact ⟨_, hσ.trans hσ'⟩

theorem Renamed.retyped (h : c.Renamed ρ c') (h' : Retyped σ c' c₁) : c.Renamed ρ c₁ := by
  obtain ⟨τ, s', hs, rfl⟩ := h
  obtain ⟨g, rfl⟩ : ∃ g, c₁ = setGraph { ρ.context c with inference := s' } g := ⟨_, h'.same⟩
  refine ⟨τ.trans σ, { s' with graph := g },
    { hs with graph := hs.graph.retyped h'.graph, calls := fun i => ?_ }, rfl⟩
  have hcalls : s'.calls[ρ.call i]? = _ := hs.calls i
  refine hcalls.trans ?_
  cases hx : c.inference.calls[i]? with
  | none => rfl
  | some x =>
    rw [hx] at hcalls
    have hslots : (x.slots.map (Option.map τ)).map (Option.map σ) = x.slots.map (Option.map τ) := by
      refine (List.map_congr_left fun slot hslot => ?_).trans (List.map_id _)
      cases slot with
      | none => rfl
      | some t => exact congrArg some (h'.slots hcalls hslot)
    have heq : x.slots.map (Option.map τ) = x.slots.map (Option.map (τ.trans σ)) := by
      rw [← hslots, List.map_map]
      refine List.map_congr_left fun slot _ => ?_
      cases slot <;> rfl
    exact congrArg (fun slots => some { x with call := ρ.mark x.call, slots := slots }) heq

end Context
end Binder
