import Binder.Proofs.Module.Ascription
import Binder.Proofs.Module.Following
import Binder.Proofs.Module.Readings
import Binder.Proofs.Module.Rearranged

/-! The same bindings in two orders. If the build in one order reports nothing and every value has the type
that is ascribed to it, then what that build has found out is a model of the build in the other order.
So the other build reports nothing either, and its values have no other types. -/
namespace Binder

open Binder.Tree (Expr)
open Inference (Model Task reading?)
open TypeGraph (Like Tied Twins)

namespace Context

variable {i i' m m' : Context} {s s' : Inference.State} {bindings bindings' : List Expr}
  {v v' : ModuleValue} {t u : TypeId}

/-- What one build has found out, as a model of the build in another order. -/
def modelOf (i i' m' : Context) (s : Inference.State) : Model where
  graph := s.graph
  scope := s.scope
  pairing := counterpart i i'
  initialises e x := ∃ v ∈ i'.values, v.definition.value = some e ∧ v.member.type = x
  expects e x := (e, x) ∈ m'.fallbacks

theorem Values.infers (h : Values bindings i m) : Infers i m :=
  (Values.run_infers (fun _ hv => hv) (h.furnished.valuing h.once) h.run).1

theorem valueSymbols_eq_of_infers (h : Infers i m) : m.valueSymbols = i.valueSymbols := by
  rw [valueSymbols, h.values, valueSymbols]

theorem Concludes.hasType (h : m.Concludes s) (ht : s.graph.HasType t) : m.graph.HasType t := by
  have ht : t.index < s.graph.types.size := ht
  rwa [h.advances.types] at ht

/-- Bindings whose inference has come to an end in two orders. -/
structure Ended (bindings bindings' : List Expr) (i i' m m' : Context) (s s' : Inference.State) :
    Prop where
  rearranged : Rearranged bindings bindings' i i' m m'
  concludes : m.Concludes s
  concludes' : m'.Concludes s'

namespace Ended

variable (h : Ended bindings bindings' i i' m m' s s')

include h

theorem infers : Infers i m := h.rearranged.values.infers

theorem infers' : Infers i' m' := h.rearranged.values'.infers

theorem valueSymbols_eq : m.valueSymbols = i.valueSymbols := valueSymbols_eq_of_infers h.infers

theorem valueSymbols_eq' : m'.valueSymbols = i.valueSymbols := by
  rw [valueSymbols_eq_of_infers h.infers', h.rearranged.aligned.valueSymbols]

theorem twins : Twins (counterpart i i') i.valueSymbols s.graph s'.graph :=
  h.rearranged.twins h.concludes.advances.grows h.concludes'.advances.grows h.concludes.names
    h.concludes'.names

theorem settled : s.graph.Settled i.valueSymbols (m.diagnostics = []) :=
  h.valueSymbols_eq ▸ h.concludes.ready.tidy.graph

theorem settled' : s'.graph.Settled i.valueSymbols (m'.diagnostics = []) :=
  h.valueSymbols_eq' ▸ h.concludes'.ready.tidy.graph

theorem comparable : s.graph.Comparable := by
  have hall : ∀ {t}, s.graph.HasType t → ∃ u, (counterpart i i').type t u :=
    fun ht => h.rearranged.exists_type (h.concludes.hasType ht)
  exact .of_settled h.settled (h.twins.sizeless hall) (h.twins.plain hall)

theorem fits : (modelOf i i' m' s).Fits i.valueSymbols s'.graph where
  paired := h.twins.paired
  sizeless := h.twins.flip.sizeless fun hu => h.rearranged.exists_type' (h.concludes'.hasType hu)
  plain := h.twins.flip.plain fun hu => h.rearranged.exists_type' (h.concludes'.hasType hu)

end Ended

/-- In the first order nothing was reported, and values have the types that are ascribed to them. -/
structure Replayed (bindings bindings' : List Expr) (i i' m m' : Context) (s s' : Inference.State) :
    Prop extends Ended bindings bindings' i i' m m' s s' where
  silent : m.Silent s
  kept : ∀ {v n a x r}, i.Turn v n → v.definition.ascription = some a →
    Build.resolveType none a n = .ok x r → s.graph.Tied v.member.type x
  appraised' : m'.Appraised bindings'
  run' : m'.inference.run m'.restTasks = (s', .ok ())
  inferable' : Inference.Inferable m'.inferred

namespace Replayed

variable (h : Replayed bindings bindings' i i' m m' s s') {x : SymbolId}

include h

theorem mem_value (hv : v ∈ i.values) : v ∈ m.values := h.infers.values ▸ hv

theorem exists_value' (hx : x ∈ i.valueSymbols) :
    ∃ v' ∈ i'.values, v'.member.type = x := by
  rw [← h.rearranged.aligned.valueSymbols] at hx
  exact List.mem_map.mp hx

theorem value_of_symbol (hv' : v' ∈ i'.values)
    (hx : (counterpart i i').symbol x v'.member.type) :
    ∃ v ∈ i.values, v'.definition.shape = v.definition.shape ∧ v.member.type = x := by
  have hmem : v'.member.type ∈ i.valueSymbols := by
    rw [← h.rearranged.aligned.valueSymbols]
    exact List.mem_map_of_mem hv'
  rcases h.rearranged.exists_glimpse_of_symbol hx with ⟨v, hv, w', hw', hshape, hv₁, hw₁⟩ |
    ⟨σ, c, c', hglimpse, hσ, -⟩
  · have heq := List.inj_on_of_nodup_map h.rearranged.aligned.tabled'.symbols hw' hv' hw₁
    exact ⟨v, hv, heq ▸ hshape, hv₁⟩
  · exact absurd hmem (hglimpse.apart hσ).2

theorem closed : (modelOf i i' m' s).Closed i.valueSymbols where
  comparable := h.comparable
  prelude := by
    intro x hx
    have hlt : x.index < Prelude.graph.symbols.size := hx
    have hbound : Prelude.graph.isBound x := by
      rw [TypeGraph.isBound, Prelude.bound?_graph, if_pos hlt]
      rfl
    exact .inl ⟨rfl, h.rearranged.values.furnished.resolvable.graph.prelude.isBound hbound⟩
  partner := by
    intro x hx
    obtain ⟨v', hv', rfl⟩ := h.exists_value' hx
    obtain ⟨v, hv, hshape⟩ := h.rearranged.aligned.exists_partner' hv'
    exact ⟨v.member.type, .inr (.inl ⟨v, hv, v', hv', hshape, rfl, rfl⟩)⟩
  unique := by
    intro x y y' hx hy hy'
    obtain ⟨v', hv', rfl⟩ := h.exists_value' hx
    obtain ⟨v, hv, hshape, rfl⟩ := h.value_of_symbol hv' hy
    obtain ⟨w, hw, hshape', rfl⟩ := h.value_of_symbol hv' hy'
    have hname := (Definition.shape_eq_iff.mp (hshape.symm.trans hshape')).2.1
    rw [List.inj_on_of_nodup_map h.rearranged.aligned.tabled.nodup_names hv hw hname]
  tied := by
    rintro e _ y w ⟨v', hv', he', rfl⟩ hy hw
    obtain ⟨v, hv, hshape, rfl⟩ := h.value_of_symbol hv' hy
    obtain ⟨-, -, -, hvalue⟩ := Definition.shape_eq_iff.mp hshape
    rw [he'] at hvalue
    obtain ⟨e₀, he₀, herase⟩ := Tree.eraseOption_eq_some hvalue.symm
    rw [Inference.reading?_eq_of_erase_eq herase.symm] at hw
    exact h.silent.tied h.comparable (h.mem_value hv) he₀ hw

theorem exists_inferred {x' : Expr} (hx' : x' ∈ m'.inferred) :
    ∃ e x, Task.infer e ∈ m.tasks ∧ x ∈ e.reached ∧ x'.erase = x.erase := by
  have hfound : ∀ {e e' : Expr}, Task.infer e ∈ m.tasks → e'.erase = e.erase → x' ∈ e'.reached →
      ∃ e x, Task.infer e ∈ m.tasks ∧ x ∈ e.reached ∧ x'.erase = x.erase := by
    intro e e' he herase hmem
    obtain ⟨x, hx, heq⟩ := Tree.exists_mem_reached herase hmem
    exact ⟨e, x, he, hx, heq⟩
  simp only [inferred, List.mem_append, List.mem_flatMap] at hx'
  rcases hx' with (⟨v', hv', hx'⟩ | ⟨d', hd', hx'⟩) | ⟨e', he', hx'⟩
  · rw [h.infers'.values] at hv'
    obtain ⟨v, hv, hshape⟩ := h.rearranged.aligned.exists_partner' hv'
    obtain ⟨e', he', hx'⟩ := Tree.mem_reachedOf.mp hx'
    obtain ⟨-, -, -, hvalue⟩ := Definition.shape_eq_iff.mp hshape
    rw [Option.mem_toList.mp he'] at hvalue
    obtain ⟨e, he, herase⟩ := Tree.eraseOption_eq_some hvalue.symm
    exact hfound (Silent.infer_mem_of_value (h.mem_value hv) he).1 herase.symm hx'
  · obtain ⟨d, hd, herase, -⟩ := h.rearranged.exists_fallback hd'
    exact hfound (Silent.infer_mem_of_fallback hd).1 herase hx'
  · rw [h.infers'.expressions] at he'
    have hmem := h.rearranged.aligned.expressions.mem_iff.mp (List.mem_map_of_mem he')
    obtain ⟨e, he, herase⟩ := List.mem_map.mp hmem
    rw [← h.infers.expressions] at he
    exact hfound (Silent.infer_mem_of_expression he) herase.symm hx'

theorem faultless : (modelOf i i' m' s).Faultless m'.inferred where
  readings := by
    intro x' hx' w hw
    obtain ⟨e, x, he, hx, herase⟩ := h.exists_inferred hx'
    rw [Inference.reading?_eq_of_erase_eq herase] at hw
    exact h.silent.fault_eq_none he hx hw
  expected := by
    intro e' y w u hexpects hw hu
    obtain ⟨d, hd, herase, hsymbol⟩ := h.rearranged.exists_fallback hexpects
    rw [Inference.reading?_eq_of_erase_eq herase] at hw
    exact ⟨d.2, hsymbol, h.silent.expected hd hw hu⟩

theorem names (name : String) :
    (modelOf i i' m' s).Names ((modelOf i i' m' s).scope.find? name) (i'.rootScope.find? name) := by
  have hroot : ∀ {i : Context}, i.Tabled → i.rootScope.find? name = i.find? name := by
    intro i ht
    rw [Context.find?, ht.root]
  have hscope : s.scope = i.rootScope := by
    rw [h.silent.concludes.advances.scope, h.infers.scope, h.rearranged.values.furnished.inference]
    rfl
  show (modelOf i i' m' s).Names (s.scope.find? name) _
  rw [hscope, hroot h.rearranged.aligned.tabled, hroot h.rearranged.aligned.tabled']
  rcases h.rearranged.find?_cases name with ⟨hi, hi'⟩ | ⟨n, n', hi, hi'⟩ | ⟨n, n', hi, hi', hn⟩
  · rw [hi, hi']
    trivial
  · rw [hi, hi']
    trivial
  · rw [hi, hi']
    exact hn

/-- The build in the second order stays within what was found out in the first. -/
theorem follows : s'.Follows (modelOf i i' m' s) i.valueSymbols m'.inferred := by
  have hV := h.rearranged.aligned.valueSymbols
  have hroot : ∀ {e : Expr}, ∀ {l : List Expr}, e.reached ⊆ l → e ∈ l :=
    fun hsub => hsub (Tree.mem_reached_self _)
  have hvalues : m'.inference.Follows (modelOf i i' m' s) i.valueSymbols m'.inferred := by
    have hfollows := h.rearranged.values'.follows (M := modelOf i i' m' s) (hV ▸ h.closed) h.inferable'
      (hV ▸ h.fits.restrict h.concludes'.advances.grows) h.names ?_ ?_
    · rwa [hV] at hfollows
    · intro v' e' hv' he'
      refine ⟨?_, v', hv', he', rfl⟩
      rw [← h.infers'.values] at hv'
      simp only [inferred, List.mem_append, List.mem_flatMap]
      refine .inl (.inl ⟨v', hv', ?_⟩)
      rw [ModuleValue.inferred, he']
      exact Tree.mem_reachedOf.mpr ⟨e', by simp, Tree.mem_reached_self e'⟩
    · intro v' n' a' y r' hturn' ha' hy
      obtain ⟨v, n, a, x, hv, hshape, hturn, ha, ⟨r, hx⟩, hxy, -⟩ :=
        h.rearranged.exists_ascribed hturn' ha' hy
      exact ⟨v.member.type, x, .inr (.inl ⟨v, hv, v', hturn'.mem, hshape, rfl, rfl⟩), hxy,
        h.kept hturn ha hx⟩
  have hV' := h.valueSymbols_eq'
  have hrest := Build.restTasks_follow h.appraised' (hV' ▸ h.closed) (hV' ▸ hvalues) ?_ ?_ h.run'
  · rwa [hV'] at hrest
  · intro d' hd'
    refine ⟨hroot fun x hx => ?_, hd'⟩
    simp only [inferred, List.mem_append, List.mem_flatMap]
    exact .inl (.inr ⟨d', hd', hx⟩)
  · intro e' he'
    refine hroot fun x hx => ?_
    simp only [inferred, List.mem_append, List.mem_flatMap]
    exact .inr ⟨e', he', hx⟩

theorem reported' : s'.diagnostics = [] := h.follows.reflected.clean h.faultless

theorem like_value (hv : v ∈ i.values) (hv' : v' ∈ i'.values)
    (hshape : v'.definition.shape = v.definition.shape)
    (hu : s'.graph.bound? v'.member.type = some u) :
    ∃ t, s.graph.bound? v.member.type = some t ∧
      Like (counterpart i i').type s.graph s'.graph t u := by
  have hmem : v'.member.type ∈ i.valueSymbols := by
    rw [← h.rearranged.aligned.valueSymbols]
    exact List.mem_map_of_mem hv'
  exact h.follows.reflected.values _ hmem (.inr (.inl ⟨v, hv, v', hv', hshape, rfl, rfl⟩)) hu

theorem kept' {n' r' : Context} {a' : Expr} {y : SymbolId} (hturn' : i'.Turn v' n')
    (ha' : v'.definition.ascription = some a') (hy : Build.resolveType none a' n' = .ok y r') :
    s'.graph.Tied v'.member.type y := by
  obtain ⟨v, n, a, x, hv, hshape, hturn, ha, ⟨r, hx⟩, hxy, hxV⟩ :=
    h.rearranged.exists_ascribed hturn' ha' hy
  have hv' := hturn'.mem
  obtain ⟨before, after, hvalues, -⟩ := hturn'
  obtain ⟨g, ⟨_, _, _, -, -, hdefinite⟩, hgrows⟩ := (Build.forM_inferValue_compares hvalues ha'
    h.rearranged.values'.furnished h.rearranged.values'.once).of_eq h.rearranged.values'.run
  obtain ⟨u, hu⟩ := TypeGraph.isBound_iff.mp
    ((hgrows.trans h.concludes'.advances.grows).isBound hdefinite.first)
  obtain ⟨t, ht, hlike⟩ := h.like_value hv hv' hshape hu
  obtain ⟨tx, htx, hsame⟩ := (h.kept hturn ha hx).symm.bound ht
  rcases h.twins.symbols hxy with ⟨hmem, -⟩ | ⟨-, -, tx₁, uy, htx₁, huy, hpaired⟩
  · exact absurd hmem hxV
  · cases htx.symm.trans htx₁
    have hlike' := h.twins.paired.like h.settled' huy hpaired
    have hsame' := (h.twins.paired.like_iff hlike hlike').mp (hsame.symm.imp Eq.symm)
    exact .inr ⟨u, uy, hu, huy, hsame'⟩

end Replayed
end Context
end Binder
