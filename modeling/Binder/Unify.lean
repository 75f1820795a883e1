import Binder.Diagnostic
import Binder.TypeGraph.Same
import Binder.TypeGraph.Text

/-! Unification of type symbols. Unbound symbols that must denote one type form a group; as soon as
a member of a group is bound, its type is passed on to all other members. Every symbol that gets
bound on the way is queued as settled. -/
namespace Binder

structure Groups where
  /-- Disjoint lists of symbols that denote the same type. -/
  groups : List (List SymbolId)
  /-- The symbols bound since the queue was last taken, in order. -/
  settled : List SymbolId
  deriving DecidableEq, Repr

namespace TypeGraph

/-- Binds those symbols of a list that are unbound, and tells which ones these were. -/
def bindAll (t : TypeId) : TypeGraph → List SymbolId → TypeGraph × List SymbolId
  | g, [] => (g, [])
  | g, s :: rest =>
      if g.isUnbound s then
        let (g, new) := bindAll t (g.assign s t) rest
        (g, s :: new)
      else bindAll t g rest

/-- Binds a symbol that is still unbound. -/
def bind (g : TypeGraph) (s : SymbolId) (t : TypeId) : Except Misuse TypeGraph :=
  if g.isBound s then .error (.symbolRebound (g.symbolText s)) else .ok (g.assign s t)

/-- How many symbols are still to be bound. -/
def unboundCount (g : TypeGraph) : Nat := g.symbols.countP fun s => s.type.isNone

theorem unboundCount_assign {g : TypeGraph} {s : SymbolId} (t : TypeId)
    (h : g.isUnbound s = true) : (g.assign s t).unboundCount + 1 = g.unboundCount := by
  unfold isUnbound at h
  split at h
  next symbol hs =>
    obtain ⟨hlt, hget⟩ := Array.getElem?_eq_some_iff.mp hs
    have hpos : 0 < g.symbols.countP fun s => s.type.isNone :=
      Array.countP_pos_iff.mpr ⟨symbol, Array.mem_of_getElem? hs, h⟩
    simp only [assign, unboundCount, hlt, ↓reduceDIte]
    rw [Array.countP_set]
    simp [hget, h]
    omega
  next => simp at h

theorem unboundCount_bindAll (t : TypeId) (ss : List SymbolId) (g : TypeGraph) :
    (bindAll t g ss).1.unboundCount + (bindAll t g ss).2.length = g.unboundCount := by
  induction ss generalizing g with
  | nil => simp [bindAll]
  | cons s rest ih =>
    unfold bindAll
    split
    next h =>
      have hrest := ih (g.assign s t)
      have hone := unboundCount_assign t h
      simp only [List.length_cons]
      omega
    next => exact ih g

/-- Where the comparison of two symbols ends. -/
inductive Meeting where
  /-- at one symbol or one type -/
  | same
  /-- at two types that differ -/
  | clash
  /-- at an unbound symbol that has to take a type -/
  | binds (symbol : SymbolId) (type : TypeId)
  /-- at two unbound symbols -/
  | joins (first second : SymbolId)
  /-- nowhere, because both types contain themselves -/
  | endless
  deriving DecidableEq, Repr

/-- Compares two symbols down to at most `depth` levels of arrays and references. The sizes of
arrays are not compared. -/
def meet (g : TypeGraph) : (depth : Nat) → SymbolId → SymbolId → Meeting
  | 0, _, _ => .endless
  | depth + 1, t, v =>
      if t = v then .same
      else match g.bound? t, g.bound? v with
        | some a, none => .binds v a
        | none, some b => .binds t b
        | none, none => .joins t v
        | some a, some b =>
            if a = b then .same
            else match g.kind? a, g.kind? b with
              | some (.array elements _), some (.array elements' _) =>
                  meet g depth elements elements'
              | some (.reference referent), some (.reference referent') =>
                  meet g depth referent referent'
              | _, _ => .clash

end TypeGraph

namespace Groups

def empty : Groups := ⟨[], []⟩

/-- The members of a symbol's group; a symbol that was never grouped is on its own. -/
def groupOf (gs : Groups) (s : SymbolId) : List SymbolId :=
  (gs.groups.find? fun group => s ∈ group).getD [s]

def remembers (gs : Groups) (s : SymbolId) : Bool := gs.groups.any fun group => s ∈ group

/-- Makes one group of the groups of two symbols. -/
def join (gs : Groups) (t v : SymbolId) : Groups :=
  let first := gs.groupOf t
  if v ∈ first then gs
  else
    let others := gs.groups.filter fun group => t ∉ group ∧ v ∉ group
    { gs with groups := (first ++ gs.groupOf v) :: others }

/-- Passes a type on to the unbound ones among some symbols and queues them as settled. -/
def spread (g : TypeGraph) (gs : Groups) (t : TypeId) (ss : List SymbolId) :
    TypeGraph × Groups :=
  let (g, new) := g.bindAll t ss
  (g, { gs with settled := gs.settled ++ new })

/-- Binds an unbound symbol and everything grouped with it. -/
def bindType (g : TypeGraph) (gs : Groups) (s : SymbolId) (t : TypeId) :
    Except Misuse (TypeGraph × Groups) :=
  if g.isBound s then .error (.symbolRebound (g.symbolText s))
  else .ok (gs.spread g t (s :: gs.groupOf s))

/-- Passes the type of a symbol that was bound by other means on to the rest of its group. -/
def settleBound (g : TypeGraph) (gs : Groups) (s : SymbolId) : TypeGraph × Groups :=
  match g.bound? s with
  | some t => gs.spread g t (gs.groupOf s)
  | none => (g, gs)

/-- Demands that two symbols denote the same type and tells whether they can. -/
def unify (g : TypeGraph) (gs : Groups) (t v : SymbolId) :
    Except Misuse (Bool × TypeGraph × Groups) :=
  match g.meet g.nestingDepth t v with
  | .same => .ok (true, g, gs)
  | .clash => .ok (false, g, gs)
  | .binds s type => .ok (true, gs.spread g type (s :: gs.groupOf s))
  | .joins first second => .ok (true, g, gs.join first second)
  | .endless => .error .endlessType

def takeSettled (gs : Groups) : List SymbolId × Groups := (gs.settled, { gs with settled := [] })

def sameGroup (gs : Groups) (t v : SymbolId) : Bool :=
  if gs.remembers t ∧ gs.remembers v then decide (v ∈ gs.groupOf t) else decide (t = v)

@[simp] theorem settled_join (gs : Groups) (t v : SymbolId) :
    (gs.join t v).settled = gs.settled := by
  simp only [join]
  split <;> rfl

/-- The queue of settled symbols only grows, and what joins it leaves the unbound symbols. -/
def Settles (g : TypeGraph) (gs : Groups) (g' : TypeGraph) (gs' : Groups) : Prop :=
  gs.settled.length ≤ gs'.settled.length ∧
    g'.unboundCount + gs'.settled.length = g.unboundCount + gs.settled.length

theorem settles_refl (g : TypeGraph) (gs : Groups) : Settles g gs g gs := ⟨Nat.le_refl _, rfl⟩

theorem settles_spread (g : TypeGraph) (gs : Groups) (t : TypeId) (ss : List SymbolId) :
    Settles g gs (gs.spread g t ss).1 (gs.spread g t ss).2 := by
  have h := TypeGraph.unboundCount_bindAll t ss g
  simp only [Settles, spread, List.length_append]
  omega

theorem settles_settleBound (g : TypeGraph) (gs : Groups) (s : SymbolId) :
    Settles g gs (gs.settleBound g s).1 (gs.settleBound g s).2 := by
  unfold settleBound
  split
  · exact settles_spread ..
  · exact settles_refl ..

theorem settles_unify {g g' : TypeGraph} {gs gs' : Groups} {t v : SymbolId} {b : Bool}
    (h : gs.unify g t v = .ok (b, g', gs')) : Settles g gs g' gs' := by
  unfold unify at h
  split at h
  · cases h
    exact settles_refl ..
  · cases h
    exact settles_refl ..
  · next s type _ =>
    simp only [Except.ok.injEq, Prod.mk.injEq] at h
    have hs := settles_spread g gs type (s :: gs.groupOf s)
    rwa [h.2] at hs
  · cases h
    simp [Settles]
  · cases h

end Groups
end Binder
