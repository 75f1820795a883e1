import Binder.Proofs.Module.Nesting
import Binder.Proofs.Tree.Numbering

/-! Resolving types. Every type expression is resolved to a known symbol, whatever is wrong with it.
The fallbacks of the parameters that are met on the way are kept to be inferred: each node is in at
most one of them, and none is left out unless something is reported. -/
namespace Binder

variable {kind : TypeKind}

namespace Tree

variable {α : Type}

/-- The fallbacks that stand in a member itself. -/
def Member.defaults : Member α → List (Node α)
  | .signature parameters _ => parameters.filterMap Parameter.fallback
  | .field .. | .nested .. => []

/-- The fallbacks that stand in the members of a type literal or an extension. -/
def Node.defaults : Node α → List (Node α)
  | .typeLiteral _ members | .extension _ _ members => members.flatMap Member.defaults
  | _ => []

/-- The nodes of the fields and signatures among some members. -/
def ownNodes : List (Member α) → List (Node α)
  | [] => []
  | .nested _ _ :: rest => ownNodes rest
  | member :: rest => member.preorder ++ ownNodes rest

/-- The nodes of the nested types among some members. -/
def nestedNodes : List (Member α) → List (Node α)
  | [] => []
  | .nested _ value :: rest => value.preorder ++ nestedNodes rest
  | _ :: rest => nestedNodes rest

theorem ownNodes_append_nestedNodes (members : List (Member α)) :
    (ownNodes members ++ nestedNodes members).Perm (preorderMembers members) := by
  induction members with
  | nil => exact .refl _
  | cons member rest ih =>
    cases member with
    | field name type mutable =>
      simp only [ownNodes, nestedNodes, preorderMembers, List.append_assoc]
      exact ih.append_left _
    | signature parameters result =>
      simp only [ownNodes, nestedNodes, preorderMembers, List.append_assoc]
      exact ih.append_left _
    | nested name value =>
      simp only [ownNodes, nestedNodes, preorderMembers]
      exact (List.perm_append_comm_assoc ..).trans (ih.append_left _)

end Tree

open Binder.Tree (Expr Mark NodeId)

namespace Constant

variable {v : Value} {op : String} {span : Span}

theorem exists_of_unary {expects : TypeCode} {c : Constant}
    (h : (unary op expects span c).1 = .known v) : ∃ w, c = .known w := by
  cases c with
  | known w => exact ⟨w, rfl⟩
  | failed | notConst => cases h

theorem exists_of_binary {right : Span} {a b : Constant}
    (h : (binary op span right a b).1 = .known v) : (∃ w, a = .known w) ∧ ∃ w, b = .known w := by
  cases a with
  | known w =>
    cases b with
    | known w' => exact ⟨⟨w, rfl⟩, w', rfl⟩
    | failed | notConst => cases h
  | failed => cases b <;> cases h
  | notConst => cases h

/-- An expression that folds to a value has no type literals in it. -/
theorem defaults_eq_nil (e : Expr) (h : (eval e).1 = .known v) :
    ∀ x ∈ e.preorder, x.defaults = [] := by
  fun_induction eval e generalizing v with
  | case1 => simp [Tree.Node.preorder, Tree.Node.defaults]
  | case2 => cases h
  | case3 =>
    rename_i ih
    obtain ⟨w, hw⟩ := exists_of_unary h
    simpa [Tree.Node.preorder, Tree.preorderOf, Tree.Node.defaults] using ih hw
  | case4 =>
    rename_i ihLeft ihRight
    obtain ⟨⟨w, hw⟩, w', hw'⟩ := exists_of_binary h
    intro x hx
    simp only [Tree.Node.preorder, Tree.preorderOf, List.append_nil, List.mem_cons,
      List.mem_append, List.cons_append, List.nil_append] at hx
    rcases hx with rfl | rfl | hx | hx
    · rfl
    · rfl
    · exact ihLeft hw x hx
    · exact ihRight hw' x hx
  | case5 => cases h

end Constant

namespace Context

variable {V : List SymbolId} {roots roots' : List BuilderId} {c c' c'' : Context} {s : SymbolId}
  {xs ys : List Expr} {x d : Expr} {name : String}

/-- How often a node occurs in the fallbacks that are to be inferred. -/
def pledged (c : Context) (n : NodeId) : Nat :=
  Tree.count n (Tree.preorderOf (c.fallbacks.map Prod.fst))

/-- The fallback of a parameter is to be inferred, or the literal around it stands in one that is. -/
def Pledges (c : Context) (x d : Expr) : Prop :=
  ∃ f s, (f, s) ∈ c.fallbacks ∧ (d = f ∨ x ∈ f.preorder)

theorem Resolves.pledges (h : Resolves V c c') (hp : c.Pledges x d) : c'.Pledges x d := by
  obtain ⟨f, s, hf, hd⟩ := hp
  exact ⟨f, s, h.fallbacks.subset hf, hd⟩

/-- Every one of some fallbacks is to be inferred. -/
def Keeps (c : Context) (ds : List Expr) : Prop := ∀ d ∈ ds, ∃ s, (d, s) ∈ c.fallbacks

theorem Resolves.keeps (h : Resolves V c c') {ds : List Expr} (hk : c.Keeps ds) : c'.Keeps ds := by
  intro d hd
  obtain ⟨s, hs⟩ := hk d hd
  exact ⟨s, h.fallbacks.subset hs⟩

/-- The types that fallbacks should have are known. -/
def Expecting (V : List SymbolId) (c : Context) : Prop := ∀ p ∈ c.fallbacks, c.Known V p.2

/-- What has become of a context in which some nodes were resolved. -/
structure Resolved (V : List SymbolId) (roots : List BuilderId) (nodes : List Expr)
    (c c' : Context) : Prop where
  resolvable : c'.Resolvable V roots
  resolves : Resolves V c c'
  charge : ∀ n, c'.pledged n ≤ c.pledged n + Tree.count n nodes
  defaults : c'.diagnostics = [] → ∀ x ∈ nodes, ∀ d ∈ x.defaults, c'.Pledges x d
  expecting : c.Expecting V → c'.Expecting V

namespace Resolved

theorem of_fallbacks_eq (h : c'.Resolvable V roots) (hr : Resolves V c c')
    (hf : c'.fallbacks = c.fallbacks)
    (hxs : c'.diagnostics = [] → ∀ x ∈ xs, x.defaults = []) : Resolved V roots xs c c' where
  resolvable := h
  resolves := hr
  charge n := by
    rw [pledged, pledged, hf]
    exact Nat.le_add_right ..
  defaults hclean x hx d hd := by
    rw [hxs hclean x hx] at hd
    cases hd
  expecting hc p hp := hr.known (hc p (hf ▸ hp))

theorem refl (h : c.Resolvable V roots) : Resolved V roots [] c c :=
  of_fallbacks_eq h (.refl V c) rfl fun _ => by simp

theorem trans (h : Resolved V roots xs c c') (h' : Resolved V roots' ys c' c'') :
    Resolved V roots' (xs ++ ys) c c'' where
  resolvable := h'.resolvable
  resolves := h.resolves.trans h'.resolves
  charge n := by
    have hle := h.charge n
    have hle' := h'.charge n
    rw [Tree.count_append]
    omega
  defaults hclean x hx d hd := by
    rcases List.mem_append.mp hx with hx | hx
    · exact h'.resolves.pledges (h.defaults (h'.resolves.clean hclean) x hx d hd)
    · exact h'.defaults hclean x hx d hd
  expecting hc := h'.expecting (h.expecting hc)

theorem perm (h : Resolved V roots xs c c') (hp : xs.Perm ys) : Resolved V roots ys c c' where
  resolvable := h.resolvable
  resolves := h.resolves
  charge n := Tree.count_perm n hp ▸ h.charge n
  defaults hclean x hx := h.defaults hclean x (hp.mem_iff.mpr hx)
  expecting := h.expecting

theorem cons (h : Resolved V roots xs c c')
    (hx : c'.diagnostics = [] → c'.Keeps x.defaults) :
    Resolved V roots (x :: xs) c c' where
  resolvable := h.resolvable
  resolves := h.resolves
  charge n := by
    have hle := h.charge n
    have hcons := Tree.count_le_cons n x xs
    omega
  defaults hclean y hy d hd := by
    rcases List.mem_cons.mp hy with rfl | hy
    · obtain ⟨s, hs⟩ := hx hclean d hd
      exact ⟨d, s, hs, .inl rfl⟩
    · exact h.defaults hclean y hy d hd
  expecting := h.expecting

end Resolved

theorem Coherent.known_of_findEnclosed? (h : c.Coherent V) {scope : Option BuilderId}
    (hf : c.findEnclosed? scope name = some s) : c.Known V s := by
  obtain ⟨id, -, hid⟩ := List.exists_of_findSome?_eq_some hf
  obtain ⟨b, hb, hs⟩ := Option.bind_eq_some_iff.mp hid
  exact h.uses hb (TypeBuilder.mem_uses_of_findType? hs)

theorem Coherent.known_of_findNested? (h : c.Coherent V) {target : SymbolId}
    (hf : c.findNested? target name = some s) : c.Known V s := by
  unfold findNested? at hf
  split at hf
  next d hd =>
    obtain ⟨t, -, ht⟩ := Option.bind_eq_some_iff.mp hd
    exact h.graph.uses ht (TypeDef.nested_mem_uses hf)
  next =>
    obtain ⟨id, -, hid⟩ := Option.bind_eq_some_iff.mp hf
    obtain ⟨b, hb, hs⟩ := Option.bind_eq_some_iff.mp hid
    exact h.uses hb (TypeBuilder.mem_uses_of_findType? hs)

theorem Resolvable.reported (h : c.Resolvable V roots) (d : Diagnostic) :
    Resolved V roots xs c (c.reported d) :=
  .of_fallbacks_eq (h.of_standing (Build.resolves_reported d)
      (h.toStanding.keep (Build.resolves_reported d) rfl rfl))
    (Build.resolves_reported d) rfl fun hclean => by simp [Context.reported] at hclean

theorem Resolved.reported (h : Resolved V roots xs c c') (d : Diagnostic) :
    Resolved V roots xs c (c'.reported d) := by
  have hreported : Resolved V roots [] c' (c'.reported d) := h.resolvable.reported d
  simpa using h.trans hreported

theorem Resolvable.newAnonymous (h : c.Resolvable V roots) (hkind : kind ≠ .error)
    (hpart : ∀ e, kind.part? = some e → c.Known V e) :
    Resolved V roots [] c (c.setGraph (c.graph.newAnonymous kind).2) ∧
      (c.setGraph (c.graph.newAnonymous kind).2).Known V (c.graph.newAnonymous kind).1 := by
  obtain ⟨hr, hstanding, hknown⟩ := h.toStanding.newAnonymous hkind hpart
  exact ⟨.of_fallbacks_eq (h.of_standing hr hstanding) hr rfl fun _ => by simp, hknown⟩

theorem Resolvable.pledge (h : c.Resolvable V roots) (e : Expr) (hs : c.Known V s) :
    Resolved V roots e.preorder c { c with fallbacks := c.fallbacks ++ [(e, s)] } := by
  have hr : Resolves V c { c with fallbacks := c.fallbacks ++ [(e, s)] } :=
    { Resolves.refl V c with backdrop := rfl, fallbacks := List.prefix_append .. }
  refine ⟨h.of_standing hr (h.toStanding.keep hr rfl rfl), hr, ?_, ?_, ?_⟩
  · intro n
    simp [pledged, Tree.preorderOf]
  · intro _ x hx d _
    exact ⟨e, s, List.mem_append_right _ List.mem_cons_self, .inr hx⟩
  · intro hc p hp
    rcases List.mem_append.mp hp with hp | hp
    · exact hr.known (hc p hp)
    · rw [List.mem_singleton.mp hp]
      exact hr.known hs

end Context

namespace Build

open Context

variable {V : List SymbolId} {roots : List BuilderId} {c c' : Context} {s : SymbolId}
  {nodes : List Expr} {id : BuilderId}

theorem reject_ends (nodes : List Expr) (h : c.Resolvable V roots) (span : Span) (fault : Fault) :
    Ends (reject span fault) c fun s c' => Resolved V roots nodes c c' ∧ c'.Known V s := by
  have hreported : Resolved V roots nodes c (c.reported ⟨span, fault⟩) := h.reported _
  refine Ends.bind (Ends.report (Ends.pure ⟨hreported, ?_⟩))
  have hgraph := hreported.resolvable.graph
  exact ⟨hgraph.error_notMem, .inl hgraph.error_bound, fun hclean => by
    simp [Context.reported] at hclean⟩

theorem reject_after (h : Resolved V roots nodes c c') (span : Span) (fault : Fault) :
    Ends (reject span fault) c' fun s c'' => Resolved V roots nodes c c'' ∧ c''.Known V s := by
  refine (reject_ends [] h.resolvable span fault).mono ?_
  rintro s c'' ⟨hreported, hknown⟩
  exact ⟨by simpa using h.trans hreported, hknown⟩

theorem newAnonymous_after (h : Resolved V roots nodes c c') (hkind : kind ≠ .error)
    (hpart : ∀ e, kind.part? = some e → c'.Known V e) :
    Ends (newAnonymous kind) c' fun s c'' => Resolved V roots nodes c c'' ∧ c''.Known V s := by
  refine Ends.withGraph ?_
  obtain ⟨hnew, hknown⟩ := h.resolvable.newAnonymous hkind hpart
  exact ⟨by simpa using h.trans hnew, hknown⟩

theorem withBuilder_ends {α : Type} {missing : α} {f : TypeBuilder → α × TypeBuilder}
    (h : c.Resolvable V roots)
    (hf : ∀ {b}, c.builders[id.index]? = some b →
      Becomes V c b (f b).2 ∧ (f b).2.outline = b.outline) :
    Ends (withBuilder id missing f) c fun _ c' => Resolved V roots [] c c' := by
  cases hb : c.builders[id.index]? with
  | none =>
    refine Ends.modifyGet ?_
    simp only [hb]
    exact .refl h
  | some b =>
    obtain ⟨hbecomes, houtline⟩ := hf hb
    have hr : Resolves V c (c.setBuilders (c.builders.setIfInBounds id.index (f b).2)) :=
      resolves_set hb hbecomes.symbol hbecomes.container
    refine Ends.withBuilder hb ?_
    exact .of_fallbacks_eq (h.of_standing hr (h.toStanding.set hb hbecomes houtline)) hr rfl
      fun _ => by simp

theorem Declares.resolved (h : Declares V roots c c') (hc : c.Resolvable V roots) :
    Resolved V roots [] c c' :=
  .of_fallbacks_eq (hc.of_standing h.resolves h.standing) h.resolves h.fallbacks fun _ => by simp

theorem fold_ends (h : c.Resolvable V roots) (e : Expr) :
    Ends (fold e) c fun constant c' => constant = (Constant.eval e).1 ∧
      Resolved V roots [] c c' := by
  refine Ends.fold ⟨rfl, ?_⟩
  have hr : Resolves V c
      { c with foldingFaults := c.foldingFaults ++ (Constant.eval e).2 } :=
    { Resolves.refl V c with backdrop := rfl }
  exact .of_fallbacks_eq (h.of_standing hr (h.toStanding.keep hr rfl rfl)) hr rfl fun _ => by simp

end Build
end Binder
