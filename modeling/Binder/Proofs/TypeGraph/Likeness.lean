import Binder.Proofs.TypeGraph.Height

/-! When two symbols denote like types. The comparisons of symbols look at most as many levels deep as
there are types; in a ranked graph that is no restriction, and what they decide is a relation that
does not mention depths. The relation lasts as the graph grows. -/
namespace Binder.TypeGraph

variable {g g' : TypeGraph} {a b e e' : SymbolId} {t v : TypeId} {rank : SymbolId → Nat}
  {sizes : Option Nat → Option Nat → Prop} {depth : Nat} {ground : SymbolId → Prop}

/-- Two symbols denote one type, or arrays or references whose parts are alike; `sizes` tells which
sizes of arrays go together. -/
inductive Alike (sizes : Option Nat → Option Nat → Prop) (g : TypeGraph) :
    SymbolId → SymbolId → Prop
  | refl (a : SymbolId) : Alike sizes g a a
  | type {a b : SymbolId} {t : TypeId} :
      g.bound? a = some t → g.bound? b = some t → Alike sizes g a b
  | array {a b e e' : SymbolId} {t v : TypeId} {n n' : Option Nat} :
      g.bound? a = some t → g.bound? b = some v → g.kind? t = some (.array e n) →
      g.kind? v = some (.array e' n') → sizes n n' → Alike sizes g e e' → Alike sizes g a b
  | reference {a b e e' : SymbolId} {t v : TypeId} :
      g.bound? a = some t → g.bound? b = some v → g.kind? t = some (.reference e) →
      g.kind? v = some (.reference e') → Alike sizes g e e' → Alike sizes g a b

/-- Like types whose arrays agree in size. -/
abbrev Same (g : TypeGraph) : SymbolId → SymbolId → Prop := Alike Eq g

/-- Like types whose arrays may differ in size. -/
abbrev SameUpToSize (g : TypeGraph) : SymbolId → SymbolId → Prop := Alike (fun _ _ => True) g

theorem Alike.grows (hg : Grows g g') (h : Alike sizes g a b) : Alike sizes g' a b := by
  induction h with
  | refl a => exact .refl a
  | type ha hb => exact .type (hg.bound ha) (hg.bound hb)
  | array ha hb hk hk' hn _ ih =>
    exact .array (hg.bound ha) (hg.bound hb) (hg.kind? hk) (hg.kind? hk') hn ih
  | reference ha hb hk hk' _ ih =>
    exact .reference (hg.bound ha) (hg.bound hb) (hg.kind? hk) (hg.kind? hk') ih

theorem Alike.congr_right {b' : SymbolId} (h : Alike sizes g a b) (hb : g.bound? b = some t)
    (hb' : g.bound? b' = some t) : Alike sizes g a b' := by
  cases h with
  | refl => exact .type hb hb'
  | type ha hv =>
    cases hb.symm.trans hv
    exact .type ha hb'
  | array ha hv hk hk' hn hparts =>
    cases hb.symm.trans hv
    exact .array ha hb' hk hk' hn hparts
  | reference ha hv hk hk' hparts =>
    cases hb.symm.trans hv
    exact .reference ha hb' hk hk' hparts

/-- A set of bound symbols that holds the parts of the types of its symbols. -/
structure Grounded (g : TypeGraph) (ground : SymbolId → Prop) : Prop where
  bound : ∀ {s}, ground s → ∃ t, g.bound? s = some t ∧ g.HasType t
  parts : ∀ {s t e}, ground s → g.bound? s = some t → g.part? t = some e → ground e

theorem Grounded.bound?_eq (h : Grounded g ground) (hg : Grows g g')
    (ha : ground a) : g'.bound? a = g.bound? a := by
  obtain ⟨t, ht, -⟩ := h.bound ha
  rw [ht, hg.bound ht]

theorem HasType.kind?_eq (ht : g.HasType t) (hg : Grows g g') : g'.kind? t = g.kind? t := by
  obtain ⟨d, hd⟩ := ht.exists_def?
  simp [TypeGraph.kind?, hd, hg.defs hd]

theorem Grounded.alike_of_grows (h : Grounded g ground)
    (hg : Grows g g') (hab : Alike sizes g' a b) : ground a → ground b → Alike sizes g a b := by
  induction hab with
  | refl a => exact fun _ _ => .refl a
  | type ha hb =>
    intro hga hgb
    rw [h.bound?_eq hg hga] at ha
    rw [h.bound?_eq hg hgb] at hb
    exact .type ha hb
  | array ha hb hk hk' hn _ ih =>
    intro hga hgb
    rw [h.bound?_eq hg hga] at ha
    rw [h.bound?_eq hg hgb] at hb
    obtain ⟨t, hta, ht⟩ := h.bound hga
    obtain ⟨v, hvb, hv⟩ := h.bound hgb
    cases hta.symm.trans ha
    cases hvb.symm.trans hb
    rw [ht.kind?_eq hg] at hk
    rw [hv.kind?_eq hg] at hk'
    exact .array ha hb hk hk' hn
      (ih (h.parts hga ha (part?_array hk)) (h.parts hgb hb (part?_array hk')))
  | reference ha hb hk hk' _ ih =>
    intro hga hgb
    rw [h.bound?_eq hg hga] at ha
    rw [h.bound?_eq hg hgb] at hb
    obtain ⟨t, hta, ht⟩ := h.bound hga
    obtain ⟨v, hvb, hv⟩ := h.bound hgb
    cases hta.symm.trans ha
    cases hvb.symm.trans hb
    rw [ht.kind?_eq hg] at hk
    rw [hv.kind?_eq hg] at hk'
    exact .reference ha hb hk hk'
      (ih (h.parts hga ha (part?_reference hk)) (h.parts hgb hb (part?_reference hk')))

theorem same_of_sameWithin (h : g.sameWithin depth a b = true) : g.Same a b := by
  induction depth generalizing a b with
  | zero => simp [sameWithin] at h
  | succ depth ih =>
    unfold sameWithin at h
    split at h
    next heq => exact heq ▸ .refl a
    next =>
      split at h
      next t v ha hb =>
        split at h
        next heq => exact .type ha (heq ▸ hb)
        next =>
          split at h
          next hk hk' =>
            simp only [Bool.and_eq_true, decide_eq_true_eq] at h
            exact .array ha hb hk hk' h.1 (ih h.2)
          next hk hk' => exact .reference ha hb hk hk' (ih h)
          next => cases h
      next => cases h

/-- A ranking of the symbols of a set, which holds the parts of what they are bound to. -/
def RankedOn (g : TypeGraph) (within : SymbolId → Prop) (rank : SymbolId → Nat) : Prop :=
  ∀ ⦃s t e⦄, within s → g.bound? s = some t → g.part? t = some e → within e ∧ rank e < rank s

theorem Ranked.on (hr : g.Ranked rank) : g.RankedOn (fun _ => True) rank :=
  fun _ _ _ _ hs ht => ⟨trivial, hr hs ht⟩

theorem sameWithin_of_same {within : SymbolId → Prop} (hr : g.RankedOn within rank) (ha : within a)
    (hd : g.height rank a < depth) (h : g.Same a b) :
    g.sameWithin depth a b = true := by
  induction h generalizing depth with
  | refl a => cases depth <;> simp_all [sameWithin]
  | type hbound hbound' =>
    cases depth with
    | zero => omega
    | succ depth => simp [sameWithin, hbound, hbound']
  | array hbound hbound' hk hk' hn _ ih =>
    cases depth with
    | zero => omega
    | succ depth =>
      obtain ⟨hin, hrank⟩ := hr ha hbound (part?_array hk)
      have hlt := height_lt hrank (part?_array hk)
      simp [sameWithin, hbound, hbound', hk, hk', hn, ih hin (show _ < depth by omega)]
  | reference hbound hbound' hk hk' _ ih =>
    cases depth with
    | zero => omega
    | succ depth =>
      obtain ⟨hin, hrank⟩ := hr ha hbound (part?_reference hk)
      have hlt := height_lt hrank (part?_reference hk)
      simp [sameWithin, hbound, hbound', hk, hk', ih hin (show _ < depth by omega)]

/-- In a ranked graph the comparison decides whether two symbols denote the same type. -/
theorem sameType_iff (hr : g.Ranked rank) : g.sameType a b = true ↔ g.Same a b :=
  ⟨same_of_sameWithin, sameWithin_of_same hr.on trivial (Nat.lt_succ_of_le height_le)⟩

theorem Grounded.sameType_eq {rank' : SymbolId → Nat}
    (h : Grounded g ground) (hg : Grows g g') (hr : g.Ranked rank) (hr' : g'.Ranked rank')
    (ha : ground a) (hb : ground b) : g'.sameType a b = g.sameType a b := by
  rw [Bool.eq_iff_iff, sameType_iff hr, sameType_iff hr']
  exact ⟨fun hab => h.alike_of_grows hg hab ha hb, fun hab => hab.grows hg⟩

/-- Symbols whose comparison ends well are alike but for sizes. -/
theorem sameUpToSize_of_meet (h : g.meet depth a b = .same) :
    g.SameUpToSize a b := by
  induction depth generalizing a b with
  | zero => cases h
  | succ depth ih =>
    unfold meet at h
    split at h
    next heq => exact heq ▸ .refl a
    next =>
      split at h
      next => cases h
      next => cases h
      next => cases h
      next t v ha hb =>
        split at h
        next heq => exact .type ha (heq ▸ hb)
        next =>
          split at h
          next hk hk' => exact .array ha hb hk hk' trivial (ih h)
          next hk hk' => exact .reference ha hb hk hk' (ih h)
          next => cases h

/-- Symbols that are alike but for sizes are compared with success. -/
theorem meet_of_sameUpToSize (hr : g.Ranked rank) (hd : g.height rank a < depth)
    (h : g.SameUpToSize a b) : g.meet depth a b = .same := by
  induction h generalizing depth with
  | refl a => cases depth <;> simp_all [meet]
  | type ha hb =>
    cases depth with
    | zero => omega
    | succ depth => simp [meet, ha, hb]
  | array ha hb hk hk' _ _ ih =>
    cases depth with
    | zero => omega
    | succ depth =>
      have hlt := height_lt (hr ha (part?_array hk)) (part?_array hk)
      simp [meet, ha, hb, hk, hk', ih (show _ < depth by omega)]
  | reference ha hb hk hk' _ ih =>
    cases depth with
    | zero => omega
    | succ depth =>
      have hlt := height_lt (hr ha (part?_reference hk)) (part?_reference hk)
      simp [meet, ha, hb, hk, hk', ih (show _ < depth by omega)]

end Binder.TypeGraph
