import Binder.Proofs.Renaming.Basic
import Binder.Proofs.TypeGraph.Binding
import Binder.Report

/-! Type graphs under other numbers. A graph holds the same types as another one under other numbers,
and the same symbols, bound to the same types. Then both tell the same of symbols, in comparisons and
in texts. -/
namespace Binder

def Renaming.meeting (ρ : Renaming) : TypeGraph.Meeting → TypeGraph.Meeting
  | .binds s t => .binds s (ρ.type t)
  | meeting => meeting

namespace TypeGraph

structure Renamed (ρ : Renaming) (g g' : TypeGraph) : Prop where
  symbols : g'.symbols = g.symbols.map ρ.entry
  types : ∀ t, g'.def? (ρ.type t) = (g.def? t).map ρ.typeDef
  size : g'.types.size = g.types.size
  next : ∀ t, g.types.size ≤ t.index → ρ.type t = t

namespace Renamed

variable {ρ : Renaming} {g g' : TypeGraph}

/-! What is read -/

section

variable (h : Renamed ρ g g')
include h

theorem symbol? (s : SymbolId) : g'.symbols[s.index]? = (g.symbols[s.index]?).map ρ.entry := by
  rw [h.symbols, Array.getElem?_map]

theorem nameOf (s : SymbolId) : g'.nameOf s = g.nameOf s := by
  rw [TypeGraph.nameOf, h.symbol?, Option.map_map]
  rfl

theorem isAnonymous (s : SymbolId) : g'.isAnonymous s = g.isAnonymous s := by
  rw [TypeGraph.isAnonymous, h.nameOf, TypeGraph.isAnonymous]

theorem bound? (s : SymbolId) : g'.bound? s = (g.bound? s).map ρ.type := by
  rw [TypeGraph.bound?, h.symbol?, TypeGraph.bound?]
  cases g.symbols[s.index]? <;> rfl

theorem isBound (s : SymbolId) : g'.isBound s = g.isBound s := by
  rw [TypeGraph.isBound, h.bound?, Option.isSome_map, TypeGraph.isBound]

theorem isUnbound (s : SymbolId) : g'.isUnbound s = g.isUnbound s := by
  simp only [TypeGraph.isUnbound, h.symbol?]
  cases g.symbols[s.index]? with
  | none => rfl
  | some x => exact Option.isNone_map

theorem read {β : Type} (f : TypeDef → β) (hf : ∀ d, f (ρ.typeDef d) = f d)
    (t : TypeId) : (g'.def? (ρ.type t)).map f = (g.def? t).map f := by
  rw [h.types, Option.map_map]
  exact congrArg (Option.map · (g.def? t)) (funext hf)

theorem kind? (t : TypeId) : g'.kind? (ρ.type t) = g.kind? t :=
  h.read TypeDef.kind (fun _ => rfl) t

theorem symbolOf (t : TypeId) : g'.symbolOf (ρ.type t) = g.symbolOf t :=
  congrArg (Option.getD · default) (h.read TypeDef.symbol (fun _ => rfl) t)

theorem isErrorType (t : TypeId) : g'.isErrorType (ρ.type t) = g.isErrorType t :=
  congrArg (Option.getD · false) (h.read TypeDef.isError (fun _ => rfl) t)

theorem typeOf? (s : SymbolId) : g'.typeOf? s = (g.typeOf? s).map ρ.typeDef := by
  rw [TypeGraph.typeOf?, h.bound?, TypeGraph.typeOf?]
  cases g.bound? s with
  | none => rfl
  | some t => exact h.types t

theorem isError (s : SymbolId) : g'.isError s = g.isError s := by
  rw [TypeGraph.isError, h.typeOf?, Option.map_map]
  rfl

theorem hasSymbol_iff {s : SymbolId} : g'.HasSymbol s ↔ g.HasSymbol s := by
  rw [HasSymbol, h.symbols, Array.size_map, HasSymbol]

theorem hasType {t : TypeId} (ht : g.HasType t) : g'.HasType (ρ.type t) := by
  obtain ⟨d, hd⟩ := ht.exists_def?
  have hget := h.types t
  rw [hd, Option.map_some] at hget
  exact (Array.getElem?_eq_some_iff.mp hget).1

/-! What is changed -/

theorem newSymbol_fst (name : String) : (g'.newSymbol name).1 = (g.newSymbol name).1 := by
  simp only [TypeGraph.newSymbol, h.symbols, Array.size_map]

theorem newSymbol (name : String) : Renamed ρ (g.newSymbol name).2 (g'.newSymbol name).2 where
  symbols := by
    simp only [TypeGraph.newSymbol, h.symbols, Array.map_push]
    rfl
  types := h.types
  size := h.size
  next := h.next

theorem assign (s : SymbolId) (t : TypeId) : Renamed ρ (g.assign s t) (g'.assign s (ρ.type t)) where
  symbols := by
    have hsymbols := h.symbols
    unfold TypeGraph.assign
    simp only [h.symbols, Array.size_map]
    split
    · apply Array.ext
      · simp
      · intro i hi hi'
        simp only [Array.getElem_map, Array.getElem_set]
        split <;> rfl
    · exact hsymbols
  types v := by
    rw [def?_assign, def?_assign]
    exact h.types v
  size := by
    rw [types_assign, types_assign]
    exact h.size
  next v hv := h.next v (by rwa [types_assign] at hv)

theorem newType (d : TypeDef) : Renamed ρ (g.newType d).2 (g'.newType (ρ.typeDef d)).2 := by
  have hlast : ρ.type ⟨g.types.size⟩ = ⟨g'.types.size⟩ := by
    rw [h.next ⟨g.types.size⟩ (Nat.le_refl _), h.size]
  have hpush : Renamed ρ { g with types := g.types.push d }
      { g' with types := g'.types.push (ρ.typeDef d) } :=
    { symbols := h.symbols
      types := by
        intro t
        have hlast_iff : (ρ.type t).index = g'.types.size ↔ t.index = g.types.size := by
          constructor
          · intro heq
            have hsame : ρ.type t = ρ.type ⟨g.types.size⟩ := by rw [hlast, ← heq]
            exact congrArg TypeId.index (ρ.type.injective hsame)
          · intro heq
            rw [show t = ⟨g.types.size⟩ by rw [← heq], hlast]
        simp only [TypeGraph.def?, Array.getElem?_push, hlast_iff]
        split
        · rfl
        · exact h.types t
      size := by rw [Array.size_push, Array.size_push, h.size]
      next := by
        intro t ht
        rw [Array.size_push] at ht
        exact h.next t (Nat.le_of_succ_le ht) }
  simp only [TypeGraph.newType]
  rw [show (ρ.typeDef d).symbol = d.symbol from rfl, h.isUnbound]
  split
  · rw [← hlast]
    exact hpush.assign d.symbol ⟨g.types.size⟩
  · exact hpush

theorem newAnonymous (kind : TypeKind) : (g'.newAnonymous kind).1 = (g.newAnonymous kind).1 ∧
      Renamed ρ (g.newAnonymous kind).2 (g'.newAnonymous kind).2 := by
  have hsymbol := h.newSymbol_fst ""
  refine ⟨hsymbol, ?_⟩
  have hnew := (h.newSymbol "").newType { symbol := (g.newSymbol "").1, kind := kind }
  simp only [TypeGraph.newAnonymous, hsymbol]
  exact hnew

/-! Comparisons -/

theorem sameWithin (depth : Nat) (a b : SymbolId) :
    g'.sameWithin depth a b = g.sameWithin depth a b := by
  induction depth generalizing a b with
  | zero => rfl
  | succ depth ih =>
    simp only [TypeGraph.sameWithin, h.bound?]
    split
    · rfl
    · rcases g.bound? a with - | t <;> rcases g.bound? b with - | v <;>
        simp only [Option.map_none, Option.map_some]
      simp only [ρ.type.apply_eq_iff_eq, h.kind?, ih]

theorem meet (depth : Nat) (a b : SymbolId) : g'.meet depth a b = ρ.meeting (g.meet depth a b) := by
  induction depth generalizing a b with
  | zero => rfl
  | succ depth ih =>
    simp only [TypeGraph.meet, h.bound?]
    split
    · rfl
    · rcases g.bound? a with - | t <;> rcases g.bound? b with - | v <;>
        simp only [Option.map_none, Option.map_some]
      · rfl
      · rfl
      · rfl
      · simp only [ρ.type.apply_eq_iff_eq, h.kind?, ih]
        split
        · rfl
        · split <;> rfl

theorem sameType (a b : SymbolId) : g'.sameType a b = g.sameType a b := by
  rw [TypeGraph.sameType, nestingDepth, h.size, h.sameWithin]
  rfl

theorem meet_nestingDepth (a b : SymbolId) :
    g'.meet g'.nestingDepth a b = ρ.meeting (g.meet g.nestingDepth a b) := by
  rw [nestingDepth, h.size, h.meet]
  rfl

theorem bindAll (t : TypeId) (ss : List SymbolId) :
    Renamed ρ (g.bindAll t ss).1 (g'.bindAll (ρ.type t) ss).1 ∧
      (g'.bindAll (ρ.type t) ss).2 = (g.bindAll t ss).2 := by
  induction ss generalizing g g' with
  | nil => exact ⟨h, rfl⟩
  | cons s rest ih =>
    simp only [TypeGraph.bindAll, h.isUnbound]
    split
    · obtain ⟨hrest, hnew⟩ := ih (h.assign s t)
      exact ⟨hrest, by rw [hnew]⟩
    · exact ih h

theorem spread (gs : Groups) (t : TypeId) (ss : List SymbolId) :
    Renamed ρ (gs.spread g t ss).1 (gs.spread g' (ρ.type t) ss).1 ∧
      (gs.spread g' (ρ.type t) ss).2 = (gs.spread g t ss).2 := by
  obtain ⟨hgraph, hnew⟩ := h.bindAll t ss
  refine ⟨hgraph, ?_⟩
  simp only [Groups.spread, hnew]

theorem unify {gs gs₁ : Groups} {t v : SymbolId} {unified : Bool}
    {g₁ : TypeGraph} (hunify : gs.unify g t v = .ok (unified, g₁, gs₁)) :
    ∃ g₁', gs.unify g' t v = .ok (unified, g₁', gs₁) ∧ Renamed ρ g₁ g₁' := by
  unfold Groups.unify at hunify ⊢
  rw [h.meet_nestingDepth]
  cases hmeet : g.meet g.nestingDepth t v with
  | same | clash | joins =>
    rw [hmeet] at hunify
    cases hunify
    exact ⟨g', rfl, h⟩
  | binds s type =>
    simp only [hmeet, Except.ok.injEq, Prod.mk.injEq] at hunify
    obtain ⟨rfl, hspread⟩ := hunify
    obtain ⟨hgraph, hgroups⟩ := h.spread gs type (s :: gs.groupOf s)
    rw [hspread] at hgraph hgroups
    exact ⟨_, congrArg (fun x => Except.ok (true, Prod.fst _, x)) hgroups, hgraph⟩
  | endless =>
    rw [hmeet] at hunify
    cases hunify

/-! Texts -/

theorem texts (n : Nat) : (∀ s, g'.symbolText? n s = g.symbolText? n s) ∧
      ∀ t, g'.typeText? n (ρ.type t) = g.typeText? n t := by
  induction n with
  | zero =>
    exact ⟨fun _ => by rw [symbolText?, symbolText?], fun _ => by rw [typeText?, typeText?]⟩
  | succ n ih =>
    obtain ⟨hsymbol, htype⟩ := ih
    refine ⟨fun s => ?_, fun t => ?_⟩
    · have hcontainer : (g'.typeOf? s).bind TypeDef.container =
          (g.typeOf? s).bind TypeDef.container := by
        rw [h.typeOf?]
        cases g.typeOf? s <;> rfl
      simp only [symbolText?, h.isAnonymous, h.nameOf, hcontainer, hsymbol, h.bound?]
      cases g.bound? s with
      | none => rfl
      | some t => simp only [Option.map_some, htype]
    · simp only [typeText?, h.types]
      cases g.def? t with
      | none => rfl
      | some d =>
        simp only [Option.map_some, Renumbering.typeDef, h.isAnonymous, hsymbol, List.mapM_map,
          Renumbering.signature, Renumbering.parameter, Function.comp_def]

theorem textDepth : g'.textDepth = g.textDepth := by
  rw [TypeGraph.textDepth, h.symbols, Array.size_map, h.size, TypeGraph.textDepth]

theorem symbolText (s : SymbolId) : g'.symbolText s = g.symbolText s := by
  rw [TypeGraph.symbolText, h.textDepth, (h.texts _).1, TypeGraph.symbolText]

theorem typeText (t : TypeId) : g'.typeText (ρ.type t) = g.typeText t := by
  rw [TypeGraph.typeText, h.textDepth, (h.texts _).2, TypeGraph.typeText]

theorem typeEntries (depth : Nat) (s : SymbolId) :
    Report.typeEntries g' depth s = Report.typeEntries g depth s := by
  induction depth generalizing s with
  | zero => rfl
  | succ depth ih =>
    simp only [Report.typeEntries, h.typeOf?]
    cases g.typeOf? s with
    | none => rfl
    | some d =>
      have hmember : g'.memberText = g.memberText :=
        funext fun m => by rw [memberText, h.symbolText, memberText]
      have hsignature : ∀ s, g'.signatureText (ρ.signature s) = g.signatureText s := by
        intro s
        simp only [signatureText, Renumbering.signature, List.mapM_map, Function.comp_def,
          Renumbering.parameter, h.symbolText]
      simp only [Option.map_some, Renumbering.typeDef, h.symbolText, hmember, List.map_map,
        Function.comp_def, hsignature, ih]

end

end Renamed
end TypeGraph
end Binder
