import Binder.Proofs.Module.InStep

/-! Contexts with types under construction while inference rests. -/
namespace Binder

/-- No name of a builder stands for two things. -/
structure TypeBuilder.Named (b : TypeBuilder) : Prop where
  members : (b.memberScope.live.map Member.name).Nodup
  types : (b.typeScope.live.map TypeName.name).Nodup

theorem ScopeBuilder.nodup_enter {α : Type} [Named α] {b : ScopeBuilder α} {a : α}
    (h : (b.live.map Named.name).Nodup) : ((b.enter a).2.live.map Named.name).Nodup := by
  unfold ScopeBuilder.enter
  split
  · exact h
  next hnone =>
    rw [List.map_append, List.map_singleton]
    refine List.Nodup.append h (List.nodup_singleton _) ?_
    intro name hname hsame
    rw [List.mem_singleton] at hsame
    subst hsame
    obtain ⟨x, hx, heq⟩ := List.mem_map.mp hname
    have hfound := List.find?_eq_none.mp hnone x hx
    simp [heq] at hfound

namespace Context

variable {V U : List SymbolId} {c c₁ : Context} {s : SymbolId} {i : Nat} {b b₁ : TypeBuilder}

/-- The symbols that types are made for: those of builders, and some for which builders may still be
opened. -/
def owners (c : Context) (U : List SymbolId) : List SymbolId :=
  c.builders.toList.map TypeBuilder.symbol ++ U

/-- Types under construction have nothing to do with inference, and their builders are in order. -/
structure Calm (V U : List SymbolId) (c : Context) : Prop where
  quiet : c.inference.Quiet V
  values : ∀ s ∈ V, c.graph.HasSymbol s
  types : ∀ {s t}, c.graph.bound? s = some t → c.graph.HasType t
  slots : ∀ {call : Nat} {gathering : Inference.Gathering},
    c.inference.calls[call]? = some gathering → ∀ {t}, some t ∈ gathering.slots → c.graph.HasType t
  owned : ∀ s ∈ c.owners U, s ∉ V ∧ c.graph.HasSymbol s
  distinct : (c.owners U).Nodup
  named : ∀ b ∈ c.builders, b.Named

namespace Calm

theorem not_mem (h : c.Calm V U) (hb : c.builders[i]? = some b) : b.symbol ∉ V :=
  (h.owned b.symbol (List.mem_append_left _
    (List.mem_map_of_mem (Array.mem_of_getElem? hb).val))).1

theorem symbol_ne (h : c.Calm V U) {j : Nat} (hb : c.builders[i]? = some b)
    (hb₁ : c.builders[j]? = some b₁) (hne : i ≠ j) : b.symbol ≠ b₁.symbol := by
  have hnodup : (c.builders.toList.map TypeBuilder.symbol).Nodup := (List.nodup_append.mp h.distinct).1
  obtain ⟨hi, rfl⟩ := Array.getElem?_eq_some_iff.mp hb
  obtain ⟨hj, rfl⟩ := Array.getElem?_eq_some_iff.mp hb₁
  have hi' : i < (c.builders.toList.map TypeBuilder.symbol).length := by simpa using hi
  have hj' : j < (c.builders.toList.map TypeBuilder.symbol).length := by simpa using hj
  intro heq
  have hsame : (c.builders.toList.map TypeBuilder.symbol)[i] =
      (c.builders.toList.map TypeBuilder.symbol)[j] := by simpa using heq
  exact hne (hnodup.getElem_inj_iff.mp hsame)

theorem congr (h : c.Calm V U) (hinference : c₁.inference = c.inference)
    (hbuilders : c₁.builders = c.builders) : c₁.Calm V U := by
  have hgraph : c₁.graph = c.graph := congrArg Inference.State.graph hinference
  have howners : c₁.owners U = c.owners U := by rw [owners, hbuilders, owners]
  constructor
  · exact hinference ▸ h.quiet
  · exact hgraph ▸ h.values
  · exact hgraph ▸ h.types
  · rw [hinference, hgraph]
    exact h.slots
  · rw [howners, hgraph]
    exact h.owned
  · exact howners ▸ h.distinct
  · exact hbuilders ▸ h.named

theorem setGraph (h : c.Calm V U) {g : TypeGraph} (hg : c.graph.Grows g)
    (htypes : ∀ {s t}, g.bound? s = some t → g.HasType t) : (c.setGraph g).Calm V U where
  quiet := ⟨h.quiet.members, h.quiet.blocked, h.quiet.settled⟩
  values s hs := hg.hasSymbol (h.values s hs)
  types := htypes
  slots hcall _ ht := hg.hasType (h.slots hcall ht)
  owned s hs := ⟨(h.owned s hs).1, hg.hasSymbol (h.owned s hs).2⟩
  distinct := h.distinct
  named := h.named

theorem newSymbol (h : c.Calm V U) (name : String) :
    (c.setGraph (c.graph.newSymbol name).2).Calm V ((c.graph.newSymbol name).1 :: U) := by
  have hold := h.setGraph (TypeGraph.grows_newSymbol name)
    (fun hs => h.types (TypeGraph.bound?_newSymbol name ▸ hs))
  have hfresh : (c.graph.newSymbol name).1 ∉ c.owners U :=
    fun hmem => Nat.lt_irrefl _ (h.owned _ hmem).2
  have hperm : ((c.setGraph (c.graph.newSymbol name).2).owners ((c.graph.newSymbol name).1 :: U)).Perm
      ((c.graph.newSymbol name).1 :: c.owners U) := List.perm_middle
  refine { hold with owned := fun s hs => ?_, distinct := hperm.nodup_iff.mpr (h.distinct.cons hfresh) }
  rcases List.mem_cons.mp (hperm.mem_iff.mp hs) with rfl | hs
  · exact ⟨fun hmem => Nat.lt_irrefl _ (h.values _ hmem),
      by simp [TypeGraph.HasSymbol, TypeGraph.newSymbol]⟩
  · exact hold.owned s hs

theorem drop (h : c.Calm V (s :: U)) : c.Calm V U := by
  have hsub : (c.owners U).Sublist (c.owners (s :: U)) :=
    List.Sublist.append_left (List.sublist_cons_self s U) _
  exact { h with owned := fun x hx => h.owned x (hsub.subset hx), distinct := hsub.nodup h.distinct }

theorem newType (h : c.Calm V U) (d : TypeDef) : (c.setGraph (c.graph.newType d).2).Calm V U := by
  refine h.setGraph (TypeGraph.grows_newType d) ?_
  intro s t hs
  rw [TypeGraph.bound?_newType] at hs
  split at hs
  · cases hs
    simp [TypeGraph.HasType, TypeGraph.types_newType]
  · exact (TypeGraph.grows_newType d).hasType (h.types hs)

theorem newAnonymous (h : c.Calm V U) (kind : TypeKind) :
    (c.setGraph (c.graph.newAnonymous kind).2).Calm V U :=
  (h.newSymbol "").drop.newType _

theorem push (h : c.Calm V (b.symbol :: U)) (hb : b.Named) :
    (c.setBuilders (c.builders.push b)).Calm V U := by
  have howners : (c.setBuilders (c.builders.push b)).owners U = c.owners (b.symbol :: U) := by
    simp [owners]
  refine ⟨h.quiet, h.values, h.types, h.slots, howners ▸ h.owned, howners ▸ h.distinct, ?_⟩
  intro b₁ hb₁
  rcases Array.mem_push.mp hb₁ with hb₁ | rfl
  · exact h.named b₁ hb₁
  · exact hb

theorem set (h : c.Calm V U) (hb : c.builders[i]? = some b) (hsymbol : b₁.symbol = b.symbol)
    (hnamed : b₁.Named) : (c.setBuilders (c.builders.setIfInBounds i b₁)).Calm V U := by
  have howners : (c.setBuilders (c.builders.setIfInBounds i b₁)).owners U = c.owners U := by
    rw [owners, builders_setBuilders, ← Array.toList_map, Array.map_setIfInBounds, hsymbol,
      Build.setIfInBounds_eq_self (by rw [Array.getElem?_map, hb, Option.map_some]),
      Array.toList_map, owners]
  refine ⟨h.quiet, h.values, h.types, h.slots, howners ▸ h.owned, howners ▸ h.distinct, ?_⟩
  intro b₂ hb₂
  rcases Array.mem_or_eq_of_mem_setIfInBounds hb₂ with hb₂ | rfl
  · exact h.named b₂ hb₂
  · exact hnamed

theorem finished (h : c.Calm V U) (hb : c.builders[i]? = some b) :
    (Build.finished c i b).Calm V U :=
  (h.newType b.made).set hb rfl ⟨List.nodup_nil, List.nodup_nil⟩

end Calm
end Context
end Binder
