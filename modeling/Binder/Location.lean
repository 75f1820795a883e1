/-! Places in a source text: positions, the spans between two of them, and the order in which
spans are listed. -/
namespace Binder

/-- A zero-based line and a zero-based character offset on it. -/
structure Position where
  line : UInt32
  character : UInt32
  deriving DecidableEq, Repr, Inhabited

/-- The part of a source from `start` up to, and without, `stop`. -/
structure Span where
  length : UInt32
  start : Position
  stop : Position
  deriving DecidableEq, Repr, Inhabited

def Position.text (p : Position) : String :=
  "line:" ++ Nat.repr p.line.toNat ++ ":" ++ Nat.repr p.character.toNat

namespace Span

/-- The span of whatever was written without one. -/
def zero : Span := ⟨0, ⟨0, 0⟩, ⟨0, 0⟩⟩

/-- A span is shown by the place where it starts. -/
def text (s : Span) : String := s.start.text

/-- Spans are ordered by length, then by start, then by end. -/
def key (s : Span) : List Nat :=
  [s.length.toNat, s.start.line.toNat, s.start.character.toNat, s.stop.line.toNat,
    s.stop.character.toNat]

def le (s t : Span) : Bool := !decide (t.key < s.key)

/-- The spans of a list from the least to the greatest. -/
def sort (spans : List Span) : List Span := spans.mergeSort le

end Span
end Binder
