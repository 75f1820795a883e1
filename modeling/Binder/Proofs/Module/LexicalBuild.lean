import Binder.Proofs.Module.Lexical
import Binder.Proofs.Module.Names
import Binder.Report

/-! The build of a module is lexical. Every builder under construction belongs to a literal of a declared
type, so the members of an extension see the literal that they extend. -/
namespace Binder

open Binder.Tree (Expr Mark)

variable {x : Extension}

/-- A member that declares a nested type. -/
def Tree.Member.declaresType : Member Mark → Bool
  | .nested _ (.typeLiteral _ _) => true
  | _ => false

namespace Lexical

open Context Build

variable {S : Nat → Prop} {c c' : Context} {n : Nat} {ids : List BuilderId} {members : List (Tree.Member Mark)}
  {plans : List Plan} {around : List (List (Tree.Member Mark) × List Plan)} {k y r : BuilderId}
  {opened : List (BuilderId × List (Tree.Member Mark) × List Plan)}
  {p : BuilderId × List (List (Tree.Member Mark) × List Plan)} {V : List SymbolId}

theorem within_other {member : Tree.Member Mark} {rest : List (Tree.Member Mark)}
    (hmember : ∀ name note inner, member ≠ .nested name (.typeLiteral note inner)) :
    within around (member :: rest) plans = within around rest plans := by
  rw [within] <;> (intros; exact hmember _ _ _ ‹_›)

/-- The literals within one have builders within those of the literals around them, and what is nested in
such a builder has its literal too. -/
theorem within_linked (h : Linked 0 c ids members plans) (hsees : c.Sees around ids) :
    (∀ p ∈ within around members plans, c.Sees p.2 (c.around (some p.1)) ∧
      ∀ k, NestedIn c.builders k p.1 → ∃ l, (k, l) ∈ within around members plans) ∧
    ∀ k ∈ plans.filterMap Plan.child?, ∃ l, (k, l) ∈ within around members plans := by
  induction h generalizing around with
  | nil => simp [within]
  | @accepted _ _ _ inner _ _ child inside _ b _ hb henclosing hknows hnested hinside _ ihInner ihRest =>
    have hliteral : Literal child _ inner inside c := ⟨⟨b, hb, henclosing, hknows, hnested⟩, hinside⟩
    have hinside : c.Sees ((inner, inside) :: around) (child :: _) := .cons ⟨_, hliteral⟩ hsees
    obtain ⟨hinner, hchildren⟩ := ihInner hinside
    obtain ⟨hrest, hothers⟩ := ihRest hsees
    simp only [within, List.mem_cons, List.mem_append]
    constructor
    · rintro p (rfl | hp | hp)
      · refine ⟨hliteral.around_eq ▸ hinside, fun k hk => ?_⟩
        rw [NestedIn, nestedOf, hb, Option.map_some, Option.getD_some, hnested] at hk
        exact (hchildren k hk).imp fun _ hl => .inr (.inl hl)
      · exact (hinner p hp).imp_right fun h k hk => (h k hk).imp fun _ hl => .inr (.inl hl)
      · exact (hrest p hp).imp_right fun h k hk => (h k hk).imp fun _ hl => .inr (.inr hl)
    · intro k hk
      rcases List.mem_cons.mp hk with rfl | hk
      · exact ⟨_, .inl rfl⟩
      · exact (hothers k hk).imp fun _ hl => .inr (.inr hl)
  | refused _ ih =>
    rw [within]
    exact ih hsees
  | other hmember _ ih =>
    rw [within_other hmember]
    exact ih hsees

/-- All declared types have got their builders. -/
structure Charted (c : Context) (opened : List (BuilderId × List (Tree.Member Mark) × List Plan)) :
    Prop where
  later : c.Later
  root : c.root.isSome
  literal : ∀ o ∈ opened, Literal o.1 [] o.2.1 o.2.2 c

theorem Charted.outlines (h : Charted c opened) (ho : Outlines (fun _ => True) c c') :
    Charted c' opened :=
  ⟨ho.later h.later, ho.root ▸ h.root, fun o hmem => (h.literal o hmem).outlines ho⟩

theorem Charted.sees_of_mem (h : Charted c opened) (hp : p ∈ literals opened) :
    c.Sees p.2 (c.around (some p.1)) := by
  obtain ⟨o, ho, hp⟩ := List.mem_flatMap.mp hp
  have hliteral := h.literal o ho
  have hsees : c.Sees [o.2] [o.1] := .cons ⟨_, hliteral⟩ .nil
  rcases List.mem_cons.mp hp with rfl | hp
  · exact hliteral.around_eq ▸ hsees
  · exact ((within_linked hliteral.linked hsees).1 p hp).1

/-- Every builder within that of a declared type has its literal. -/
theorem Charted.mem_literals (h : Charted c opened) (hr : r ∈ opened.map Prod.fst)
    (hw : Within c.builders y r) : ∃ l, (y, l) ∈ literals opened := by
  induction hw using Relation.ReflTransGen.head_induction_on with
  | refl =>
    obtain ⟨o, ho, rfl⟩ := List.mem_map.mp hr
    exact ⟨_, List.mem_flatMap.mpr ⟨o, ho, List.mem_cons_self⟩⟩
  | head hn _ ih =>
    obtain ⟨l, hl⟩ := ih
    obtain ⟨o, ho, hl⟩ := List.mem_flatMap.mp hl
    have hliteral := h.literal o ho
    have hsees : c.Sees [o.2] [o.1] := .cons ⟨_, hliteral⟩ .nil
    have hwithin := within_linked hliteral.linked hsees
    suffices ∃ l, (_, l) ∈ within [o.2] o.2.1 o.2.2 by
      obtain ⟨l, hl⟩ := this
      exact ⟨l, List.mem_flatMap.mpr ⟨o, ho, List.mem_cons_of_mem _ hl⟩⟩
    rcases List.mem_cons.mp hl with heq | hl
    · cases heq
      obtain ⟨b, hb, -, -, hnested⟩ := hliteral.builder
      rw [NestedIn, nestedOf, hb, Option.map_some, Option.getD_some, hnested] at hn
      exact hwithin.2 _ hn
    · exact (hwithin.1 _ hl).2 _ hn

theorem Charted.sees (h : Charted c opened) (hr : r ∈ opened.map Prod.fst)
    (hw : Within c.builders y r) :
    c.Sees (Resolver.lexical.inside opened y) (c.around (some y)) := by
  obtain ⟨l, hl⟩ := h.mem_literals hr hw
  show c.Sees (((literals opened).lookup y).getD []) (c.around (some y))
  cases hlookup : (literals opened).lookup y with
  | none =>
    have hnot := List.lookup_eq_none_iff.mp hlookup _ hl
    simp at hnot
  | some l' =>
    obtain ⟨before, after, heq, -⟩ := List.lookup_eq_some_iff.mp hlookup
    exact h.sees_of_mem (p := (y, l')) (by simp [heq])

def Flat (members : List (Tree.Member Mark)) : Prop := ∀ m ∈ members, m.declaresType = false

end Lexical

namespace Context

open Build

/-- A name that means no type is reported once and stands for the error type. -/
def settled (c : Context) (span : Span) : Except Fault SymbolId → EStateM.Result Misuse Context SymbolId
  | .ok symbol => .ok symbol c
  | .error fault => .ok Prelude.error (c.reported ⟨span, fault⟩)

end Context
end Binder
