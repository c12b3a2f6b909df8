/-!
# Positions and spans

An editor names a place in a text by a line and a column, both counted from
zero, with columns counted in characters.  A `Position` is one such place and a
`Span` is the extent of one word on one line.  People read both counted from
one, which is what `display` writes.

Lines and columns are natural numbers without a bound.  Where they are kept in 32 bits,
what is said here holds of texts with fewer than 2^32 lines, of fewer than 2^32
characters each.

## Main Definitions

* `Position` and `Span`.
* `Span.ofName`: the extent of a word that starts at a position.
* `Span.touches`: whether a caret stands in a span or at one of its ends.
* `Span.before`: the order of spans, by line, then by start, then by end.
-/

namespace SymbolAtlas

/-- A place in a text: a line and a column, counted from zero in characters and without
a bound. -/
structure Position where
  line : Nat
  column : Nat
deriving DecidableEq, Repr, Inhabited

/-- A position as people read it, counted from one: `line:column`. -/
def Position.display (p : Position) : String :=
  toString (p.line + 1) ++ ":" ++ toString (p.column + 1)

/-- The extent of one word: the columns from `start` up to, not including,
`stop` on one line.  All three numbers are counted without a bound. -/
structure Span where
  line : Nat
  start : Nat
  stop : Nat
deriving DecidableEq, Repr, Inhabited

namespace Span

/-- The span at the very beginning of a text, which stands in for a location
that is not known. -/
def origin : Span := ⟨0, 0, 0⟩

/-- The extent of `name` when it is written at `p`. -/
def ofName (p : Position) (name : String) : Span :=
  ⟨p.line, p.column, p.column + name.length⟩

/-- The extent of the single character at `p`. -/
def ofPosition (p : Position) : Span :=
  ⟨p.line, p.column, p.column + 1⟩

/-- Where a span begins. -/
def position (s : Span) : Position := ⟨s.line, s.start⟩

/-- How many characters a span covers; none when it ends before it starts. -/
def length (s : Span) : Nat := s.stop - s.start

/-- Whether a span covers no character. -/
def isEmpty (s : Span) : Bool := s.length == 0

/-- Whether a caret at `p` stands in the span or at either of its ends. -/
def touches (s : Span) (p : Position) : Bool :=
  p.line == s.line && s.start ≤ p.column && p.column ≤ s.stop

/-- A span as people read it, counted from one: `line:start-stop`. -/
def display (s : Span) : String :=
  toString (s.line + 1) ++ ":" ++ toString (s.start + 1) ++ "-" ++ toString (s.stop + 1)

/-- Spans are ordered by line, then by start, then by end. -/
def before (a b : Span) : Bool :=
  a.line < b.line ||
    (a.line == b.line && (a.start < b.start ||
      (a.start == b.start && a.stop < b.stop)))

end Span

end SymbolAtlas
