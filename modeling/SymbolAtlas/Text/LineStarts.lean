import SymbolAtlas.Text.Position

/-!
# From byte offsets to positions

A `LineStarts` remembers where the lines of a text begin, as byte offsets of its
UTF-8 form, and turns an offset into a position.  An offset past the end stands
for the end; an offset that does not lie between two characters has column zero.

## Main Definitions

* `LineStarts.ofText`: the offsets at which lines begin.
* `LineStarts.position`: the position of a byte offset.
-/

namespace SymbolAtlas

/-- The byte offsets at which the lines of a text begin. -/
structure LineStarts where
  offsets : List Nat
deriving DecidableEq, Repr

namespace LineStarts

/-- The offsets directly after the line feeds of a text whose first character
stands at `offset`. -/
def afterLineFeeds (offset : Nat) : List Char → List Nat
  | [] => []
  | c :: cs =>
    let next := offset + c.utf8Size
    if c = '\n' then next :: afterLineFeeds next cs else afterLineFeeds next cs

/-- The line starts of a text: the beginning and every place after a line feed. -/
def ofText (text : String) : LineStarts :=
  ⟨0 :: afterLineFeeds 0 text.toList⟩

/-- The number of lines. -/
def count (starts : LineStarts) : Nat := starts.offsets.length

/-- How many characters stand before a byte offset, when the offset lies between
two characters of the text or at one of its ends. -/
def charactersBefore : Nat → List Char → Option Nat
  | 0, _ => some 0
  | _ + 1, [] => none
  | offset + 1, c :: cs =>
    if offset + 1 < c.utf8Size then none
    else (charactersBefore (offset + 1 - c.utf8Size) cs).map (· + 1)

/-- How many characters stand between two byte offsets; none when one of them
lies inside a character or past the end. -/
def charactersBetween (start stop : Nat) (text : List Char) : Nat :=
  match charactersBefore start text, charactersBefore stop text with
  | some a, some b => b - a
  | _, _ => 0

/-- The number of the line that holds a byte offset. -/
def lineOf (starts : LineStarts) (offset : Nat) : Nat :=
  (starts.offsets.takeWhile (· ≤ offset)).length - 1

/-- The position of a byte offset, its column being counted in `text`. -/
def position (starts : LineStarts) (text : String) (offset : Nat) : Position :=
  let line := starts.lineOf offset
  let start := starts.offsets.getD line 0
  ⟨line, charactersBetween start (min offset text.utf8ByteSize) text.toList⟩

end LineStarts

end SymbolAtlas
