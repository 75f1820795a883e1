import Binder.Module.TypeBuilder
import Binder.Proofs.Scope.Frozen
import Binder.Proofs.TypeGraph.Settled

/-! The symbols that a type under construction mentions. Each operation on a builder adds those that it
was given, and the type that is made in the end mentions no others. -/
namespace Binder

variable {name : String}

namespace ScopeBuilder

variable {α : Type} [Named α] {b : ScopeBuilder α} {a x : α}

/-- Every entry that a scope under construction can find. -/
def entries (b : ScopeBuilder α) : List α := b.live ++ b.base.tables.flatten

theorem mem_entries_of_find? (h : b.find? name = some a) : a ∈ b.entries := by
  rcases Option.or_eq_some_iff.mp h with hlive | ⟨-, hbase⟩
  · exact List.mem_append_left _ (List.mem_of_find?_eq_some hlive)
  · exact List.mem_append_right _ (Scope.mem_of_find? hbase)

theorem mem_entries_of_freeze (h : a ∈ b.freeze.1.tables.flatten) : a ∈ b.entries := by
  simp only [freeze, Scope.tables_merge, List.flatMap_cons, List.flatMap_nil, List.append_nil,
    List.flatten_append, List.mem_append] at h
  rcases h with h | h
  · refine List.mem_append_left _ ?_
    unfold Scope.ofList at h
    split at h
    · cases h
    · rw [Scope.tables, List.flatten_singleton, Scope.arrange] at h
      exact List.mem_mergeSort.mp ((firsts_sublist _).subset h)
  · exact List.mem_append_right _ h

theorem mem_entries_of_frozen (h : a ∈ b.freeze.2.entries) : a ∈ b.entries :=
  List.mem_append_right _ (by simpa [freeze, withBase, entries] using h)

theorem mem_entries_of_enter (h : x ∈ (b.enter a).2.entries) : x = a ∨ x ∈ b.entries := by
  unfold enter at h
  split at h
  · exact .inr h
  · simp only [entries, List.mem_append, List.mem_singleton] at h ⊢
    rcases h with (h | h) | h
    · exact .inr (.inl h)
    · exact .inl h
    · exact .inr (.inr h)

end ScopeBuilder

namespace TypeBuilder

/-- The symbols that a builder mentions, other than its own. -/
def uses (b : TypeBuilder) : List SymbolId :=
  b.memberScope.entries.map Member.type ++ b.typeScope.entries.map TypeName.symbol ++
    b.signatures.flatMap Signature.uses ++ b.members.map Member.type ++ b.container.toList

variable {b b' : TypeBuilder} {s : SymbolId} {entry : TypeName}

theorem mem_uses : s ∈ b.uses ↔ (∃ m ∈ b.memberScope.entries, m.type = s) ∨
    (∃ entry ∈ b.typeScope.entries, entry.symbol = s) ∨
    (∃ signature ∈ b.signatures, s ∈ signature.uses) ∨ (∃ m ∈ b.members, m.type = s) ∨
    b.container = some s := by
  simp [uses, List.mem_append, List.mem_map, List.mem_flatMap]

theorem uses_opened (symbol : SymbolId) (container : Option SymbolId) (enclosing : List BuilderId) :
    uses { symbol := symbol, container := container, enclosing := enclosing } = container.toList := rfl

theorem mem_uses_of_findType? (h : b.findType? name = some s) : s ∈ b.uses := by
  obtain ⟨entry, hentry, rfl⟩ := Option.map_eq_some_iff.mp h
  exact mem_uses.mpr (.inr (.inl ⟨entry, ScopeBuilder.mem_entries_of_find? hentry, rfl⟩))

/-- What resolving and filling types leaves of a builder. -/
def outline (b : TypeBuilder) : TypeBuilder :=
  { b with members := [], memberScope := .empty, signatures := [] }

theorem of_outline_eq (h : b'.outline = b.outline) :
    b'.symbol = b.symbol ∧ b'.enclosing = b.enclosing ∧ b'.typeScope = b.typeScope ∧
      b'.nested = b.nested := by
  obtain ⟨hsymbol, -, -, henclosing, -, -, htypes, -, hnested⟩ := mk.inj h
  exact ⟨hsymbol, henclosing, htypes, hnested⟩

theorem place_of_outline_eq (h : b'.outline = b.outline) :
    b'.kind = b.kind ∧ b'.container = b.container := by
  obtain ⟨-, hkind, hcontainer, -⟩ := mk.inj h
  exact ⟨hkind, hcontainer⟩

theorem outline_addMember (b : TypeBuilder) (m : Member) : (b.addMember m).2.outline = b.outline := by
  simp only [addMember]
  split <;> rfl

theorem signatures_addMember (b : TypeBuilder) (m : Member) :
    (b.addMember m).2.signatures = b.signatures := by
  simp only [addMember]
  split <;> rfl

theorem mem_uses_of_addMember {m : Member} (h : s ∈ (b.addMember m).2.uses) :
    s = m.type ∨ s ∈ b.uses := by
  unfold addMember at h
  simp only at h
  split at h
  · rcases mem_uses.mp h with ⟨m', hm', rfl⟩ | htype | hsignature | ⟨m', hm', rfl⟩ | hcontainer
    · rcases ScopeBuilder.mem_entries_of_enter hm' with rfl | hm'
      · exact .inl rfl
      · exact .inr (mem_uses.mpr (.inl ⟨m', hm', rfl⟩))
    · exact .inr (mem_uses.mpr (.inr (.inl htype)))
    · exact .inr (mem_uses.mpr (.inr (.inr (.inl hsignature))))
    · rcases List.mem_append.mp hm' with hold | hnew
      · exact .inr (mem_uses.mpr (.inr (.inr (.inr (.inl ⟨m', hold, rfl⟩)))))
      · exact .inl (congrArg Member.type (List.mem_singleton.mp hnew))
    · exact .inr (mem_uses.mpr (.inr (.inr (.inr (.inr hcontainer)))))
  · exact .inr h

theorem mem_uses_of_addType (h : s ∈ (b.addType entry).2.uses) :
    s = entry.symbol ∨ s ∈ b.uses := by
  rcases mem_uses.mp h with hmember | ⟨entry', hentry', rfl⟩ | hrest
  · exact .inr (mem_uses.mpr (.inl hmember))
  · rcases ScopeBuilder.mem_entries_of_enter hentry' with rfl | hentry'
    · exact .inl rfl
    · exact .inr (mem_uses.mpr (.inr (.inl ⟨entry', hentry', rfl⟩)))
  · exact .inr (mem_uses.mpr (.inr (.inr hrest)))

theorem addType_of_taken (h : ¬ (b.addType entry).1) :
    (b.addType entry).2 = b := by
  simp only [addType, ScopeBuilder.enter] at h ⊢
  split at h
  next => rfl
  next => exact absurd rfl h

theorem addType_of_added (h : (b.addType entry).1) :
    lookup? entry.name b.typeScope.live = none ∧ (b.addType entry).2 =
      { b with typeScope := ⟨b.typeScope.live ++ [entry], b.typeScope.base⟩ } := by
  simp only [addType, ScopeBuilder.enter] at h ⊢
  split at h
  next => cases h
  next hfree => exact ⟨hfree, rfl⟩

theorem taken_of_addType (h : ¬ (b.addType entry).1) :
    lookup? entry.name b.typeScope.live ≠ none := by
  intro hfree
  apply h
  simp only [addType, ScopeBuilder.enter]
  rw [show Named.name entry = entry.name from rfl, hfree]

theorem mem_uses_of_addSignature {signature : Signature} (h : s ∈ (b.addSignature signature).uses) :
    s ∈ signature.uses ∨ s ∈ b.uses := by
  rcases mem_uses.mp h with hmember | htype | ⟨signature', hsignature', hs⟩ | hrest
  · exact .inr (mem_uses.mpr (.inl hmember))
  · exact .inr (mem_uses.mpr (.inr (.inl htype)))
  · rcases List.mem_append.mp hsignature' with hold | hnew
    · exact .inr (mem_uses.mpr (.inr (.inr (.inl ⟨signature', hold, hs⟩))))
    · rw [List.mem_singleton.mp hnew] at hs
      exact .inl hs
  · exact .inr (mem_uses.mpr (.inr (.inr (.inr hrest))))

@[simp] theorem uses_addNested (s : SymbolId) (id : BuilderId) :
    (b.addNested s id).uses = b.uses := rfl

def made (b : TypeBuilder) : TypeDef :=
  { symbol := b.symbol, kind := b.kind, members := b.members, memberScope := b.memberScope.freeze.1,
    typeScope := b.typeScope.freeze.1, signatures := b.signatures, container := b.container }

def emptied (b : TypeBuilder) : TypeBuilder :=
  { b with members := [], memberScope := b.memberScope.freeze.2,
           typeScope := b.typeScope.freeze.2, signatures := [] }

theorem mem_uses_of_made (hk : b.kind = .record) (h : s ∈ b.made.uses) : s ∈ b.uses := by
  rw [mem_uses]
  rcases TypeDef.mem_uses.mp h with h | ⟨m, hm, rfl⟩ | ⟨entry, hentry, rfl⟩ | hrest
  · rw [made, hk] at h
    cases h
  · exact .inl ⟨m, ScopeBuilder.mem_entries_of_freeze hm, rfl⟩
  · exact .inr (.inl ⟨entry, ScopeBuilder.mem_entries_of_freeze hentry, rfl⟩)
  · exact .inr (.inr hrest)

theorem mem_uses_of_emptied (h : s ∈ b.emptied.uses) : s ∈ b.uses := by
  rw [mem_uses] at h ⊢
  rcases h with ⟨m, hm, rfl⟩ | ⟨entry, hentry, rfl⟩ | ⟨signature, hsignature, -⟩ | ⟨m, hm, -⟩ | hcontainer
  · exact .inl ⟨m, ScopeBuilder.mem_entries_of_frozen hm, rfl⟩
  · exact .inr (.inl ⟨entry, ScopeBuilder.mem_entries_of_frozen hentry, rfl⟩)
  · cases hsignature
  · cases hm
  · exact .inr (.inr (.inr (.inr hcontainer)))

end TypeBuilder
end Binder
