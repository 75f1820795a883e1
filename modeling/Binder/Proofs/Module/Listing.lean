import Binder.Proofs.Module.Parallel
import Binder.Proofs.TypeGraph.Twins
import Binder.Report

/-! What a report lists of types. Two graphs whose symbols are told by the same texts give the same list,
type by type and down to the types that are nested in them. -/
namespace Binder

namespace Pairing

variable {p q : Pairing} {d d' : TypeDef}

/-- Types that are listed alike if corresponding symbols are. -/
structure Listed (p : Pairing) (d d' : TypeDef) : Prop where
  members : List.Forall₂ p.Members d.members d'.members
  signatures : List.Forall₂ p.Signatures d.signatures d'.signatures
  nested : List.Forall₂ p.Names d.typeScope.entries d'.typeScope.entries

theorem Scopes.entries {α : Type} [Named α] {R : α → α → Prop} {s s' : Scope α} (h : Scopes R s s') :
    List.Forall₂ R s.entries s'.entries := by
  cases h with
  | empty => exact .nil
  | table hl => exact hl

theorem Defs.listed (h : p.Defs d d') : p.Listed d d' :=
  ⟨h.members, h.signatures, h.typeScope.entries⟩

end Pairing

namespace Report

open TypeGraph

variable {p : Pairing} {g h : TypeGraph} {x y : SymbolId} {α β γ : Type}

theorem map_eq_of_forall₂ {R : α → β → Prop} {f : α → γ} {f' : β → γ} {l : List α}
    {l' : List β} (hl : List.Forall₂ R l l') (hf : ∀ {a b}, R a b → f' b = f a) :
    l'.map f' = l.map f := by
  induction hl with
  | nil => rfl
  | cons hab _ ih => rw [List.map_cons, List.map_cons, hf hab, ih]

theorem flatMap_eq_of_forall₂ {R : α → β → Prop} {f : α → List γ} {f' : β → List γ}
    {l : List α} {l' : List β} (hl : List.Forall₂ R l l') (hf : ∀ {a b}, R a b → f' b = f a) :
    l'.flatMap f' = l.flatMap f := by
  rw [List.flatMap_def, List.flatMap_def, map_eq_of_forall₂ hl hf]

/-- Symbols with the same texts and with types that are listed alike give the same list. -/
theorem typeEntries_eq (htext : ∀ {x y}, p.symbol x y → h.symbolText y = g.symbolText x)
    (htype : ∀ {x y}, p.symbol x y → Option.Rel p.Listed (g.typeOf? x) (h.typeOf? y)) (n : Nat)
    (hxy : p.symbol x y) : typeEntries h n y = typeEntries g n x := by
  induction n generalizing x y with
  | zero => rfl
  | succ n ih =>
    rw [typeEntries, typeEntries]
    rcases rel_cases (htype hxy) with ⟨hd, hd'⟩ | ⟨d, d', hd, hd', hlisted⟩
    · rw [hd, hd']
    · have hmembers : d'.members.map h.memberText = d.members.map g.memberText := by
        refine map_eq_of_forall₂ hlisted.members fun hm => ?_
        rw [memberText, memberText, hm.name, htext hm.type]
      have hsignatures : d'.signatures.map h.signatureText = d.signatures.map g.signatureText := by
        refine map_eq_of_forall₂ hlisted.signatures fun hs => ?_
        rw [signatureText, signatureText, htext hs.result, mapM_eq hs.parameters fun q _ q' hq => ?_]
        rw [hq.name, htext hq.type]
      simp only [hd, hd', htext hxy, hmembers, hsignatures,
        flatMap_eq_of_forall₂ hlisted.nested fun hn => ih hn.symbol]

end Report
end Binder
