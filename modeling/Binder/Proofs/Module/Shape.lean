import Binder.Proofs.Module.InStep

/-! Passes over trees of the same shape. Trees that differ in their notes only are resolved in step, as
long as no array type in them has a size. -/
namespace Binder.Build

open Context
open Binder.Tree (Expr Mark eraseMembers eraseOption eraseParameters)

variable {σ : Shift} {c c' : Context} {id id' : BuilderId} {scope scope' : Option BuilderId}
  {ms ms' : List (Tree.Member Mark)}

theorem declareNested_inStep (h : eraseMembers ms' = eraseMembers ms) (hid : σ.builder id id') :
    InStep σ (declareNested id ms) (declareNested id' ms') (Plans σ) := by
  fun_induction declareNested id ms generalizing id' ms' with
  | case1 id =>
    rw [Tree.eraseMembers_eq_nil h, declareNested]
    exact .pure .nil
  | case2 id name note inner rest ih₁ ih₂ =>
    obtain ⟨m, rest', rfl, hm, hrest⟩ := Tree.eraseMembers_eq_cons h
    obtain ⟨value, rfl, hvalue⟩ := Tree.erase_eq_nested hm
    obtain ⟨note', inner', rfl, hinner⟩ := Tree.erase_eq_typeLiteral hvalue
    rw [declareNested]
    apply InStep.get.bind
    intro c c' hc
    apply (newSymbol_inStep name).bind
    intro symbol symbol' hsymbol
    have hcontainer := rel_map (hc.builders.entry hid) Shift.Builders.symbol
    apply nest_inStep hid hsymbol hcontainer
    · intro child child' hchild
      apply (ih₁ child hinner hchild).bind
      intro inside inside' hinside
      apply (ih₂ hrest hid).bind
      intro plans plans' hplans
      exact .pure (.accepted hchild hinside hplans)
    · apply (report_inStep ..).bind
      intro _ _ _
      exact (ih₂ hrest hid).bind fun hplans => .pure (.refused hplans)
  | case3 id name value rest hvalue ih =>
    obtain ⟨m, rest', rfl, hm, hrest⟩ := Tree.eraseMembers_eq_cons h
    obtain ⟨value', rfl, hvalue'⟩ := Tree.erase_eq_nested hm
    rw [declareNested]
    · exact (report_inStep ..).bind fun _ => ih hrest hid
    · rintro note inner rfl
      obtain ⟨note', inner', rfl, -⟩ := Tree.erase_eq_typeLiteral hvalue'.symm
      exact hvalue note' inner' rfl
  | case4 id member rest hliteral hnested ih =>
    obtain ⟨m, rest', rfl, hm, hrest⟩ := Tree.eraseMembers_eq_cons h
    cases member with
    | field name type mutable =>
      obtain ⟨type', rfl, -⟩ := Tree.erase_eq_field hm
      simpa only [declareNested] using ih hrest hid
    | signature parameters result =>
      obtain ⟨parameters', result', rfl, -⟩ := Tree.erase_eq_signature hm
      simpa only [declareNested] using ih hrest hid
    | nested name value => exact (hnested name value rfl).elim

theorem addMember_inStep {m m' : Member} (hid : σ.builder id id') (hm : σ.pairing.Members m m') :
    InStep σ (withBuilder id false fun b => b.addMember m)
      (withBuilder id' false fun b => b.addMember m') Eq := by
  apply withBuilder_inStep hid rfl
  · intro b b' hb
    exact hb.addMember hm
  · intro b
    have hkeep : ∀ m : Member, (b.addMember m).2.symbol = b.symbol ∧
        (b.addMember m).2.nested = b.nested := by
      intro m
      simp only [TypeBuilder.addMember]
      split <;> exact ⟨rfl, rfl⟩
    exact ⟨(hkeep m).1, (hkeep m').1, (hkeep m).2⟩

def Unsized (nodes : List Expr) : Prop := ∀ e ∈ nodes, e.isSized = false

theorem Unsized.mono {nodes nodes' : List Expr} (h : Unsized nodes) (hsub : nodes' ⊆ nodes) :
    Unsized nodes' := fun e he => h e (hsub he)

mutual

theorem resolveType_inStep : (e : Expr) → ∀ {e' : Expr} {scope scope' : Option BuilderId},
    e'.erase = e.erase → Unsized e.preorder → Option.Rel σ.builder scope scope' →
    InStep σ (resolveType scope e) (resolveType scope' e') σ.pairing.symbol
  | .ident note name, e', scope, scope', h, hsize, hscope => by
    obtain ⟨note', rfl⟩ := Tree.erase_eq_ident h
    rw [resolveType, resolveTypeBy, resolveType, resolveTypeBy]
    apply InStep.get.bind
    intro c c' hc
    rcases rel_cases (hc.findEnclosed? hscope name) with ⟨hx, hx'⟩ | ⟨x, x', hx, hx', hrel⟩
    · simp only [hx, hx']
      have hname := hc.scope name
      generalize c.find? name = d at hname
      generalize c'.find? name = d' at hname
      cases hname with
      | none => exact reject_inStep ..
      | some hd =>
        cases hd with
        | type hn => exact .pure hn.symbol
        | value => exact reject_inStep ..
    · simp only [hx, hx']
      exact .pure hrel
  | .selection note target member, e', scope, scope', h, hsize, hscope => by
    obtain ⟨note', target', rfl, htarget⟩ := Tree.erase_eq_selection h
    rw [resolveType, resolveTypeBy, resolveType, resolveTypeBy]
    apply (resolveType_inStep target htarget (hsize.mono (by simp [Tree.Node.preorder])) hscope).bind
    intro x x' hx
    apply InStep.get.bind
    intro c c' hc
    rw [hc.graph.isError hx]
    split
    · exact .pure hx
    · rcases rel_cases (hc.findNested? hx member) with ⟨hy, hy'⟩ | ⟨y, y', hy, hy', hrel⟩
      · simp only [hy, hy']
        exact reject_inStep ..
      · simp only [hy, hy']
        exact .pure hrel
  | .arrayType note element size, e', scope, scope', h, hsize, hscope => by
    have hnone : size = none := by
      cases size with
      | none => rfl
      | some size => cases hsize _ (Tree.mem_preorder_self _)
    subst hnone
    obtain ⟨note', element', rfl, helement⟩ := Tree.erase_eq_arrayType h
    rw [resolveType, resolveTypeBy, resolveType, resolveTypeBy]
    apply (resolveType_inStep element helement (hsize.mono (by simp [Tree.Node.preorder])) hscope).bind
    intro x x' hx
    exact newAnonymous_inStep (.array hx)
  | .referenceType note referent, e', scope, scope', h, hsize, hscope => by
    obtain ⟨note', referent', rfl, hreferent⟩ := Tree.erase_eq_referenceType h
    rw [resolveType, resolveTypeBy, resolveType, resolveTypeBy]
    apply (resolveType_inStep referent hreferent (hsize.mono (by simp [Tree.Node.preorder])) hscope).bind
    intro x x' hx
    exact newAnonymous_inStep (.reference hx)
  | .typeLiteral note members, e', scope, scope', h, hsize, hscope => by
    obtain ⟨note', members', rfl, hmembers⟩ := Tree.erase_eq_typeLiteral h
    have hinside : Unsized (Tree.preorderMembers members) :=
      hsize.mono (by simp [Tree.Node.preorder])
    rw [resolveType, resolveTypeBy, resolveType, resolveTypeBy]
    apply (newSymbol_inStep "").bind
    intro symbol symbol' hsymbol
    apply (newBuilder_inStep hsymbol .none hscope).bind
    intro id id' hid
    apply (declareNested_inStep hmembers hid).bind
    intro plans plans' hplans
    apply (populate_inStep members hmembers hinside hid).bind
    intro _ _ _
    apply (populateNested_inStep members hmembers hinside hplans).bind
    intro _ _ _
    apply (finishTypes_inStep hid).bind
    intro _ _ _
    exact .pure hsymbol
  | .literal .., e', _, _, h, _, _ | .call .., e', _, _, h, _, _ | .namedArgument .., e', _, _, h, _, _
  | .sequence .., e', _, _, h, _, _ | .definition .., e', _, _, h, _, _
  | .extension .., e', _, _, h, _, _ => by
    cases e' <;> first
      | (simp only [resolveType, resolveTypeBy]; exact reject_inStep ..)
      | exact absurd h (by simp [Tree.Node.erase])
termination_by e => sizeOf e

theorem populate_inStep : (ms : List (Tree.Member Mark)) → ∀ {ms' : List (Tree.Member Mark)}
    {id id' : BuilderId} {receiver receiver' : Option SymbolId}, eraseMembers ms' = eraseMembers ms →
    Unsized (Tree.preorderMembers ms) → σ.builder id id' →
    InStep σ (populate id receiver ms) (populate id' receiver' ms') fun _ _ => True
  | [], ms', id, id', receiver, receiver', h, hsize, hid => by
    rw [Tree.eraseMembers_eq_nil h, populate, populateBy, populate, populateBy]
    exact .pure trivial
  | .field name type mutable :: rest, ms', id, id', receiver, receiver', h, hsize, hid => by
    obtain ⟨_, rest', rfl, hfield, hrest⟩ := Tree.eraseMembers_eq_cons h
    obtain ⟨type', rfl, htype⟩ := Tree.erase_eq_field hfield
    have hdone : InStep σ (populate id receiver rest) (populate id' receiver' rest') fun _ _ => True :=
      populate_inStep rest hrest (hsize.mono (by simp [Tree.preorderMembers])) hid
    rw [populate, populateBy, populate, populateBy]
    apply (resolveType_inStep type htype
      (hsize.mono (by simp [Tree.preorderMembers, Tree.Member.preorder])) (.some hid)).bind
    intro x x' hx
    have hm : σ.pairing.Members ⟨name, x, .field mutable⟩ ⟨name, x', .field mutable⟩ := ⟨rfl, rfl, hx⟩
    apply (addMember_inStep hid hm).bind
    rintro inserted _ rfl
    split
    · exact hdone
    · exact (report_inStep ..).bind fun _ => hdone
  | .signature parameters result :: rest, ms', id, id', receiver, receiver', h, hsize, hid => by
    obtain ⟨m, rest', rfl, hm, hrest⟩ := Tree.eraseMembers_eq_cons h
    obtain ⟨parameters', result', rfl, hparameters, hresult⟩ := Tree.erase_eq_signature hm
    rw [populate, populateBy, populate, populateBy]
    apply (resolveParameters_inStep parameters hparameters
      (hsize.mono (by simp [Tree.preorderMembers, Tree.Member.preorder])) hid).bind
    intro ps ps' hps
    apply (resolveType_inStep result hresult
      (hsize.mono (by simp [Tree.preorderMembers, Tree.Member.preorder])) (.some hid)).bind
    intro x x' hx
    apply InStep.bind (withBuilder_inStep (A := fun _ _ => True) hid trivial ?_ fun b => ⟨rfl, rfl, rfl⟩)
    · intro _ _ _
      exact populate_inStep rest hrest (hsize.mono (by simp [Tree.preorderMembers])) hid
    · intro b b' hb
      exact ⟨trivial, hb.addSignature ⟨hps, hx⟩⟩
  | .nested name value :: rest, ms', id, id', receiver, receiver', h, hsize, hid => by
    obtain ⟨m, rest', rfl, hm, hrest⟩ := Tree.eraseMembers_eq_cons h
    obtain ⟨value', rfl, -⟩ := Tree.erase_eq_nested hm
    rw [populate, populateBy, populate, populateBy]
    exact populate_inStep rest hrest (hsize.mono (by simp [Tree.preorderMembers])) hid
termination_by ms => sizeOf ms

theorem resolveParameters_inStep : (ps : List (Tree.Parameter Mark)) →
    ∀ {ps' : List (Tree.Parameter Mark)} {id id' : BuilderId} {names : List String},
    eraseParameters ps' = eraseParameters ps → Unsized (Tree.preorderParameters ps) →
    σ.builder id id' →
    InStep σ (resolveParameters id names ps) (resolveParameters id' names ps')
      (List.Forall₂ σ.pairing.Parameters)
  | [], ps', id, id', names, h, hsize, hid => by
    rw [Tree.eraseParameters_eq_nil h, resolveParameters, resolveParametersBy, resolveParameters, resolveParametersBy]
    exact .pure .nil
  | .mk name type fallback :: rest, ps', id, id', names, h, hsize, hid => by
    obtain ⟨type', fallback', rest', rfl, htype, hfallback, hrest⟩ := Tree.eraseParameters_eq_cons h
    have hinside : Unsized (Tree.preorderParameters rest) :=
      hsize.mono (by simp [Tree.preorderParameters])
    rw [resolveParameters, resolveParametersBy, resolveParameters, resolveParametersBy]
    apply (resolveType_inStep type htype
      (hsize.mono (by simp [Tree.preorderParameters, Tree.Parameter.preorder])) (.some hid)).bind
    intro x x' hx
    split
    · exact (report_inStep ..).bind fun _ => resolveParameters_inStep rest hrest hinside hid
    · have hdone : InStep σ (resolveParameters id (name :: names) rest)
          (resolveParameters id' (name :: names) rest') (List.Forall₂ σ.pairing.Parameters) :=
        resolveParameters_inStep rest hrest hinside hid
      cases fallback with
      | none =>
        cases Tree.eraseOption_eq_none hfallback
        exact hdone.bind fun hps => .pure (.cons ⟨rfl, hx, rfl⟩ hps)
      | some e =>
        obtain ⟨e', rfl, he⟩ := Tree.eraseOption_eq_some hfallback
        have hpledge : InStep σ
            (modify fun c => { c with fallbacks := c.fallbacks ++ [(e, x)] })
            (modify fun c => { c with fallbacks := c.fallbacks ++ [(e', x')] }) fun _ _ => True :=
          .modifyGet fun hc => ⟨hc.pledge ⟨he, hx⟩, trivial⟩
        apply hpledge.bind
        intro _ _ _
        exact hdone.bind fun hps => .pure (.cons ⟨rfl, hx, rfl⟩ hps)
termination_by ps => sizeOf ps

theorem populateNested_inStep (ms : List (Tree.Member Mark)) {ms' : List (Tree.Member Mark)}
    {plans plans' : List Plan} (h : eraseMembers ms' = eraseMembers ms)
    (hsize : Unsized (Tree.preorderMembers ms)) (hplans : Plans σ plans plans') :
    InStep σ (populateNested ms plans) (populateNested ms' plans') fun _ _ => True := by
  match ms with
  | [] =>
    rw [Tree.eraseMembers_eq_nil h, populateNested, populateNestedBy, populateNested, populateNestedBy]
    exact .pure trivial
  | m :: rest =>
    obtain ⟨m', rest', rfl, hm, hrest⟩ := Tree.eraseMembers_eq_cons h
    have hbeside : Unsized (Tree.preorderMembers rest) := hsize.mono (by simp [Tree.preorderMembers])
    rcases m.nested_cases with ⟨name, note, inner, rfl⟩ | hother
    · obtain ⟨value, rfl, hvalue⟩ := Tree.erase_eq_nested hm
      obtain ⟨note', inner', rfl, hinner⟩ := Tree.erase_eq_typeLiteral hvalue
      have hinside : Unsized (Tree.preorderMembers inner) :=
        hsize.mono (by simp [Tree.preorderMembers, Tree.Member.preorder, Tree.Node.preorder])
      cases hplans with
      | nil =>
        simp only [populateNested, populateNestedBy]
        exact populateNested_inStep rest hrest hbeside .nil
      | refused hplans =>
        simp only [populateNested, populateNestedBy]
        exact populateNested_inStep rest hrest hbeside hplans
      | accepted hchild hin hplans =>
        simp only [populateNested, populateNestedBy]
        apply (populate_inStep inner hinner hinside hchild).bind
        intro _ _ _
        apply (populateNested_inStep inner hinner hinside hin).bind
        intro _ _ _
        exact populateNested_inStep rest hrest hbeside hplans
    · have hother' : ∀ name note inner, m' ≠ .nested name (.typeLiteral note inner) := by
        rintro name note inner rfl
        obtain ⟨value, rfl, hvalue⟩ := Tree.erase_eq_nested hm.symm
        obtain ⟨note', inner', rfl, -⟩ := Tree.erase_eq_typeLiteral hvalue
        exact hother _ _ _ rfl
      rw [populateNested, populateNestedBy_skip hother, populateNested, populateNestedBy_skip hother']
      exact populateNested_inStep rest hrest hbeside hplans
termination_by sizeOf ms

end

end Binder.Build
