import Binder.Proofs.TypeGraph.Settled
import Binder.Report
import Mathlib.Data.Fintype.Sum

/-! Texts that come to an end. The text of a symbol or a type is made of those of others: of the type
that contains it if it has a name, of what it mentions if it has none. A text that does not come to an
end within as many steps as there are symbols and types never does. -/
namespace Binder

/-- The symbols that the text of a type without a name is made of. -/
def TypeDef.shown (d : TypeDef) : List SymbolId :=
  match d.kind.part? with
  | some part => [part]
  | none => d.members.map Member.type ++ d.signatures.flatMap Signature.uses

namespace TypeGraph

variable {g g' : TypeGraph} {s : SymbolId} {t : TypeId} {d : TypeDef} {n m : Nat}
  {p q : SymbolId ⊕ TypeId}

/-- The text of a symbol or of a type is made of that of another one. -/
inductive Needs (g : TypeGraph) : SymbolId ⊕ TypeId → SymbolId ⊕ TypeId → Prop
  | container {s s' : SymbolId} {d : TypeDef} : g.isAnonymous s = false → g.typeOf? s = some d →
      d.container = some s' → Needs g (.inl s) (.inl s')
  | bound {s : SymbolId} {t : TypeId} : g.isAnonymous s = true → g.bound? s = some t →
      Needs g (.inl s) (.inr t)
  | own {t : TypeId} {d : TypeDef} : g.def? t = some d → g.isAnonymous d.symbol = false →
      Needs g (.inr t) (.inl d.symbol)
  | shown {t : TypeId} {d : TypeDef} {s : SymbolId} : g.def? t = some d →
      g.isAnonymous d.symbol = true → s ∈ d.shown → Needs g (.inr t) (.inl s)

/-- A type that does not exist has no text. -/
def Has (g : TypeGraph) : SymbolId ⊕ TypeId → Prop
  | .inl _ => True
  | .inr t => g.HasType t

/-- The text comes to an end within `depth` steps. -/
def toldIn (g : TypeGraph) (depth : Nat) : SymbolId ⊕ TypeId → Bool
  | .inl s => (g.symbolText? depth s).isSome
  | .inr t => (g.typeText? depth t).isSome

theorem isSome_mapM {α β : Type} {f : α → Option β} {l : List α} :
    (l.mapM f).isSome ↔ ∀ a ∈ l, (f a).isSome := by
  induction l with
  | nil => simp
  | cons a l ih =>
    rw [List.forall_mem_cons, ← ih, List.mapM_cons]
    cases f a <;> cases l.mapM f <;> simp

theorem isSome_both {α β γ : Type} {a : Option α} {b : Option β} {f : α → β → γ} :
    (do return f (← a) (← b) : Option γ).isSome ↔ a.isSome ∧ b.isSome := by
  cases a <;> cases b <;> simp

theorem isSome_signature {text : SymbolId → Option String} {signature : Signature} :
    (do
      let parameters ← signature.parameters.mapM fun p => (text p.type).map (p.name ++ ": " ++ ·)
      return signatureFrame parameters (← text signature.result) : Option String).isSome ↔
      ∀ s ∈ signature.uses, (text s).isSome := by
  rw [isSome_both, isSome_mapM, Signature.uses, List.forall_mem_cons, and_comm]
  simp

theorem toldIn_zero : g.toldIn 0 p = false := by
  cases p <;> simp [toldIn, symbolText?, typeText?]

theorem toldIn_nameless (hd : g.def? t = some d) (hname : g.isAnonymous d.symbol = true) :
    g.toldIn (n + 1) (.inr t) ↔ ∀ s ∈ d.shown, g.toldIn n (.inl s) := by
  simp only [toldIn, typeText?, hd, hname, TypeDef.shown]
  cases d.kind with
  | array | reference => simp [TypeKind.part?]
  | record | module | error =>
    simp only [Bool.not_true, Bool.false_eq_true, if_false]
    rw [isSome_both, isSome_mapM, isSome_mapM]
    simp only [isSome_signature, Option.isSome_map, TypeKind.part?, List.forall_mem_append,
      List.forall_mem_map, List.forall_mem_flatMap]

/-- A text comes to an end if those do that it is made of. -/
theorem toldIn_succ : g.toldIn (n + 1) p ↔ g.Has p ∧ ∀ q, g.Needs p q → g.toldIn n q := by
  refine ⟨fun h => ⟨?_, fun q hq => ?_⟩, fun ⟨hp, h⟩ => ?_⟩
  · rcases p with s | t
    · trivial
    · by_contra ht
      have hnone : g.def? t = none := Array.getElem?_eq_none (Nat.not_lt.mp ht)
      simp [toldIn, typeText?, hnone] at h
  · cases hq with
    | container hname hd hs => simpa [toldIn, symbolText?, hname, hd, hs] using h
    | bound hname ht => simpa [toldIn, symbolText?, hname, ht] using h
    | own hd hname => simpa [toldIn, typeText?, hd, hname] using h
    | shown hd hname hs => exact (toldIn_nameless hd hname).mp h _ hs
  · rcases p with s | t
    · simp only [toldIn, symbolText?]
      cases hname : g.isAnonymous s with
      | true =>
        cases ht : g.bound? s with
        | none => rfl
        | some t => exact h _ (.bound hname ht)
      | false =>
        cases hs : (g.typeOf? s).bind TypeDef.container with
        | none => rfl
        | some s' =>
          obtain ⟨d, hd, hs⟩ := Option.bind_eq_some_iff.mp hs
          simpa [toldIn] using h _ (.container hname hd hs)
    · obtain ⟨d, hd⟩ := hp.exists_def?
      cases hname : g.isAnonymous d.symbol with
      | true => exact (toldIn_nameless hd hname).mpr fun s hs => h _ (.shown hd hname hs)
      | false => simpa [toldIn, typeText?, hd, hname] using h _ (.own hd hname)

theorem toldIn_mono (hle : n ≤ m) (h : g.toldIn n p) : g.toldIn m p := by
  induction n generalizing m p with
  | zero => rw [toldIn_zero] at h; cases h
  | succ n ih =>
    obtain ⟨m, rfl⟩ := Nat.exists_eq_add_of_lt hle
    obtain ⟨hp, hq⟩ := toldIn_succ.mp h
    exact toldIn_succ.mpr ⟨hp, fun q hneeds => ih (by omega) (hq q hneeds)⟩

/-- The symbols and the types that a graph has. -/
def place (g : TypeGraph) : Fin g.symbols.size ⊕ Fin g.types.size → SymbolId ⊕ TypeId :=
  Sum.map (fun i => ⟨i⟩) (fun i => ⟨i⟩)

/-- Whatever a graph does not have is told at once or never. -/
theorem exists_place (p : SymbolId ⊕ TypeId) :
    (∃ i, g.place i = p) ∨ ∀ n m, g.toldIn (n + 1) p → g.toldIn (m + 1) p := by
  rcases p with s | t
  · by_cases hs : s.index < g.symbols.size
    · exact .inl ⟨.inl ⟨s.index, hs⟩, rfl⟩
    · have hnone : g.symbols[s.index]? = none := Array.getElem?_eq_none (Nat.not_lt.mp hs)
      refine .inr fun n m _ => ?_
      simp [toldIn, symbolText?, isAnonymous, nameOf, bound?, hnone]
  · by_cases ht : t.index < g.types.size
    · exact .inl ⟨.inr ⟨t.index, ht⟩, rfl⟩
    · exact .inr fun n m h => absurd (toldIn_succ.mp h).1 ht

/-- Those that are told within some steps. -/
def heard (g : TypeGraph) (n : Nat) : Finset (Fin g.symbols.size ⊕ Fin g.types.size) :=
  Finset.univ.filter fun i => g.toldIn (n + 1) (g.place i)

theorem heard_subset (h : n ≤ m) : g.heard n ⊆ g.heard m :=
  Finset.monotone_filter_right _ fun _ _ => toldIn_mono (Nat.succ_le_succ h)

theorem toldIn_of_card_eq (hle : n ≤ m) (hcard : (g.heard m).card = (g.heard n).card)
    (p : SymbolId ⊕ TypeId) (h : g.toldIn (m + 1) p) : g.toldIn (n + 1) p := by
  have heq : g.heard n = g.heard m := Finset.eq_of_subset_of_card_le (heard_subset hle) hcard.le
  rcases g.exists_place p with ⟨i, rfl⟩ | hsame
  · have hi : i ∈ g.heard m := by simpa [heard] using h
    rw [← heq] at hi
    simpa [heard] using hi
  · exact hsame m n h

/-- A text that comes to an end at all does so within as many steps as there are symbols and types: while
the steps tell anything new, each of them tells at least one text that was not told before. -/
theorem toldIn_textDepth (h : g.toldIn n p) : g.toldIn g.textDepth p := by
  have hbound (m : Nat) : (g.heard m).card ≤ g.symbols.size + g.types.size := by
    refine (Finset.card_filter_le _ _).trans ?_
    simp
  have hstable (m : Nat) (hm : (g.heard m).card = (g.heard (m + 1)).card) :
      (g.heard (m + 1)).card = (g.heard (m + 2)).card := by
    refine congrArg Finset.card ((heard_subset (Nat.le_succ _)).antisymm fun i hi => ?_)
    obtain ⟨hp, hq⟩ := toldIn_succ.mp (by simpa [heard] using hi)
    have hback := toldIn_of_card_eq (Nat.le_succ m) hm.symm
    simpa [heard] using toldIn_succ.mpr ⟨hp, fun q hneeds => hback q (hq q hneeds)⟩
  by_cases hn : n ≤ g.textDepth
  · exact toldIn_mono hn h
  · obtain ⟨m, rfl⟩ : ∃ m, n = m + 1 := ⟨n - 1, by omega⟩
    have hm : g.symbols.size + g.types.size ≤ m := by
      rw [textDepth] at hn
      omega
    exact toldIn_of_card_eq hm (Nat.stabilises_of_monotone
      (monotone_nat_of_le_succ fun k => Finset.card_le_card (heard_subset (Nat.le_succ k)))
      hbound hstable hm) p h

/-- The text of a symbol comes to an end at some time. -/
def Tellable (g : TypeGraph) (s : SymbolId) : Prop := ∃ depth, (g.symbolText? depth s).isSome

theorem isSome_symbolText : (g.symbolText s).isSome ↔ g.Tellable s :=
  ⟨fun h => ⟨_, h⟩, fun ⟨n, h⟩ => toldIn_textDepth (n := n) (p := .inl s) h⟩

theorem isSome_typeLine (name : String) (hkind : d.kind = .record) :
    (Report.typeLine
      ⟨some name, d.members.map g.memberText, d.signatures.map g.signatureText⟩).isSome ↔
      ∀ s ∈ d.shown, g.Tellable s := by
  rw [Report.typeLine, isSome_both, isSome_mapM]
  simp only [id, Option.isSome_some, and_true, TypeDef.shown, hkind, TypeKind.part?,
    List.forall_mem_append, List.forall_mem_map, List.forall_mem_flatMap, memberText, signatureText,
    isSome_signature, Option.isSome_map, isSome_symbolText]

/-- A report can be written down if none of the texts in it is missing. -/
theorem isSome_reportText {r : Report} : r.text.isSome ↔ r.module.isSome ∧
    (∀ t ∈ r.types, (Report.typeLine t).isSome) ∧ (∀ v ∈ r.values, v.type.isSome) ∧
      ∀ d ∈ r.diagnostics, d.message.isSome := by
  have hvalue (v : Report.ValueEntry) : (Report.valueLine v).isSome ↔ v.type.isSome := by
    rw [Report.valueLine]
    cases v.type <;> simp
  have hdiagnostic (d : Report.DiagnosticEntry) : (Report.diagnosticLine d).isSome ↔ d.message.isSome := by
    rw [Report.diagnosticLine]
    cases d.message <;> simp
  simp only [← hvalue, ← hdiagnostic, ← isSome_mapM, Report.text]
  cases r.types.mapM Report.typeLine <;> cases r.values.mapM Report.valueLine <;>
    cases r.diagnostics.mapM Report.diagnosticLine <;> cases r.module <;> simp

end TypeGraph
end Binder
