import Binder.Inference.Overload
import Binder.Proofs.TypeGraph.Settled
import Mathlib.Data.List.Forall2

/-! The signature that a call gets. It is found by comparing the types of the arguments with those of
parameters, all of which are built by then, so it stays the same as values are bound and types are
added. -/
namespace Binder

namespace TypeGraph

variable {V : List SymbolId} {D : Prop} {g g' : TypeGraph} {a b : SymbolId} {t : TypeId}
  {rank : SymbolId → Nat}

theorem symbolOf_eq {d : TypeDef} (h : g.def? t = some d) : g.symbolOf t = d.symbol := by
  simp [symbolOf, h]

theorem HasType.symbolOf_eq (h : g.HasType t) (hg : Grows g g') :
    g'.symbolOf t = g.symbolOf t := by
  obtain ⟨d, hd⟩ := h.exists_def?
  rw [TypeGraph.symbolOf_eq hd, TypeGraph.symbolOf_eq (hg.defs hd)]

theorem Settled.bound?_symbolOf (h : g.Settled V D) (ht : g.HasType t) :
    g.bound? (g.symbolOf t) = some t := by
  obtain ⟨d, hd⟩ := ht.exists_def?
  rw [symbolOf_eq hd]
  exact (h.own hd).1

theorem Settled.sameType_eq (h : g.Settled V D) (hr : g'.Ranked rank) (hg : Grows g g')
    (ha : g.isBound a) (hb : g.isBound b) : g'.sameType a b = g.sameType a b :=
  h.grounded.sameType_eq hg h.ranked hr ha hb

theorem Settled.sameType_symbolOf_eq (h : g.Settled V D) (hr : g'.Ranked rank) (hg : Grows g g')
    (ha : g.isBound a) (ht : g.HasType t) :
    g'.sameType a (g'.symbolOf t) = g.sameType a (g.symbolOf t) := by
  rw [ht.symbolOf_eq hg]
  exact h.sameType_eq hr hg ha (isBound_iff.mpr ⟨t, h.bound?_symbolOf ht⟩)

end TypeGraph

namespace Overload

variable {A : TypeId → TypeId → Prop} {g h : TypeGraph} {parameters parameters' : List Parameter}
  {named named' : List (String × TypeId)} {α β : Type}

/-- Parameters that take the same arguments in two graphs, where `A` tells which arguments go
together. -/
structure Agree (A : TypeId → TypeId → Prop) (g h : TypeGraph) (q q' : Parameter) : Prop where
  name : q'.name = q.name
  fallback : q'.fallback.isSome = q.fallback.isSome
  type : ∀ {t u}, A t u → h.sameType q'.type (h.symbolOf u) = g.sameType q.type (g.symbolOf t)

theorem place?_eq (hq : List.Forall₂ (Agree A g h) parameters parameters') (name : String) :
    place? name parameters' = place? name parameters := by
  induction hq with
  | nil => rfl
  | cons ha _ ih => simp only [place?, ih, ha.name]

theorem forall₂_getElem? {R : α → β → Prop} {l : List α} {l' : List β}
    (hl : List.Forall₂ R l l') (i : Nat) : Option.Rel R l[i]? l'[i]? := by
  induction hl generalizing i with
  | nil => exact .none
  | cons ha _ ih =>
    cases i with
    | zero => exact .some ha
    | succ i => exact ih i

section

variable (hq : List.Forall₂ (Agree A g h) parameters parameters')
include hq

theorem placeNamed_eq (hnamed : List.Forall₂ (fun a a' => a'.1 = a.1 ∧ A a.2 a'.2) named named') (used : List Nat) :
    placeNamed h parameters' named' used = placeNamed g parameters named used := by
  induction hnamed generalizing used with
  | nil => rfl
  | @cons a a' _ _ ha _ ih =>
    obtain ⟨name, t⟩ := a
    obtain ⟨name', u⟩ := a'
    obtain ⟨hname, ht⟩ := ha
    have hname : name' = name := hname
    simp only [placeNamed, place?_eq hq, hname, ih]
    cases place? name parameters with
    | none => rfl
    | some i =>
      simp only
      have hi := forall₂_getElem? hq i
      generalize parameters[i]? = q at hi
      generalize parameters'[i]? = q' at hi
      cases hi with
      | none => rfl
      | some hagree => simp only [hagree.type ht]

theorem takes_eq {types types' : List TypeId}
    (htypes : List.Forall₂ A types types') : takes h parameters' types' = takes g parameters types := by
  induction hq generalizing types types' with
  | nil => cases htypes <;> rfl
  | cons hagree _ ih =>
    cases htypes with
    | nil => simp only [takes, hagree.fallback, ih .nil]
    | cons ht hrest => simp only [takes, hagree.type ht, ih hrest]

theorem unused_rel (used : List Nat) :
    List.Forall₂ (Agree A g h) (unused parameters used) (unused parameters' used) := by
  unfold unused
  generalize 0 = n
  induction hq generalizing n with
  | nil => exact .nil
  | cons hagree _ ih =>
    simp only [List.zipIdx_cons, List.filter_cons]
    split
    · exact .cons hagree (ih (n + 1))
    · exact ih (n + 1)

end

theorem accepts_eq {s s' : Signature} (hq : List.Forall₂ (Agree A g h) s.parameters s'.parameters)
    {positional positional' : List TypeId}
    (hnamed : List.Forall₂ (fun a a' => a'.1 = a.1 ∧ A a.2 a'.2) named named')
    (hpositional : List.Forall₂ A positional positional') :
    accepts h s' named' positional' = accepts g s named positional := by
  simp only [accepts, placeNamed_eq hq hnamed]
  split
  · exact takes_eq (unused_rel hq _) hpositional
  · rfl

theorem zip_rel {arguments arguments' : List TypeId} (hargs : List.Forall₂ A arguments arguments')
    (names : List (Option String)) :
    List.Forall₂ (fun a a' => a'.1 = a.1 ∧ A a.2 a'.2) (names.zip arguments)
      (names.zip arguments') := by
  induction hargs generalizing names with
  | nil => cases names <;> exact .nil
  | cons ha _ ih =>
    cases names with
    | nil => exact .nil
    | cons name names => exact .cons ⟨rfl, ha⟩ (ih names)

/-- The signature of a call whose target and arguments have the given types. -/
def signature? (g : TypeGraph) (names : List (Option String)) (target : TypeId)
    (arguments : List TypeId) : Option Signature :=
  select? g (((g.def? target).map TypeDef.signatures).getD [])
    ((names.zip arguments).filterMap fun a => a.1.map fun name => (name, a.2))
    ((names.zip arguments).filterMap fun a => if a.1.isNone then some a.2 else none)

/-- Calls of types whose signatures go together, with arguments that do, get signatures that do. -/
theorem signature?_rel {R : Signature → Signature → Prop} {target target' : TypeId}
    (hsignatures : List.Forall₂ (fun s s' =>
        R s s' ∧ List.Forall₂ (Agree A g h) s.parameters s'.parameters)
      (((g.def? target).map TypeDef.signatures).getD [])
      (((h.def? target').map TypeDef.signatures).getD []))
    {ts us : List TypeId} (hargs : List.Forall₂ A ts us) (names : List (Option String)) :
    Option.Rel R (signature? g names target ts) (signature? h names target' us) := by
  have hzip := zip_rel hargs names
  have hnamed : List.Forall₂ (fun a a' => a'.1 = a.1 ∧ A a.2 a'.2)
      ((names.zip ts).filterMap fun a => a.1.map fun name => (name, a.2))
      ((names.zip us).filterMap fun a => a.1.map fun name => (name, a.2)) := by
    refine List.rel_filterMap ?_ hzip
    rintro ⟨name, v⟩ ⟨name', w⟩ ⟨hname, ha⟩
    cases show name' = name from hname
    cases name with
    | none => exact .none
    | some name => exact .some ⟨rfl, ha⟩
  have hpositional : List.Forall₂ A
      ((names.zip ts).filterMap fun a => if a.1.isNone then some a.2 else none)
      ((names.zip us).filterMap fun a => if a.1.isNone then some a.2 else none) := by
    refine List.rel_filterMap ?_ hzip
    rintro ⟨name, v⟩ ⟨name', w⟩ ⟨hname, ha⟩
    cases show name' = name from hname
    cases name with
    | none => exact .some ha
    | some name => exact .none
  unfold signature? select?
  generalize ((g.def? target).map TypeDef.signatures).getD [] = signatures at hsignatures ⊢
  generalize ((h.def? target').map TypeDef.signatures).getD [] = signatures' at hsignatures ⊢
  induction hsignatures with
  | nil => exact .none
  | cons hs _ ih =>
    rw [List.find?_cons, List.find?_cons, accepts_eq hs.2 hnamed hpositional]
    split
    · exact .some hs.1
    · exact ih

end Overload
end Binder
