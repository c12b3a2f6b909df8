/-!
# Lines of a text

A line ends at a line feed, or at a carriage return directly followed by a line
feed.  What follows the last line end is a line of its own only when it is not
empty.

## Main Definitions

* `linesOf`: the lines of a text, without their ends.
* `line?`: one line by number.
* `OutOfBounds`: a line or column was asked for that the text does not have.
-/

namespace SymbolAtlas

/-- The lines of a text, without their ends. -/
def linesOf : List Char → List (List Char)
  | [] => []
  | '\n' :: rest => [] :: linesOf rest
  | '\r' :: '\n' :: rest => [] :: linesOf rest
  | c :: rest =>
    match linesOf rest with
    | [] => [[c]]
    | line :: lines => (c :: line) :: lines

/-- The line with a given number, when the text has it. -/
def line? (text : String) (number : Nat) : Option (List Char) :=
  (linesOf text.toList)[number]?

/-- A line or column was asked for that lies outside the text. -/
structure OutOfBounds where
  line : Nat
  column : Nat
deriving DecidableEq, Repr

/-- What is reported for a place outside the text, counted from zero. -/
def OutOfBounds.message (e : OutOfBounds) : String :=
  "position " ++ toString e.line ++ ":" ++ toString e.column ++ " is outside the source text"

/-- The line with a given number.  A missing line is reported at its first
column. -/
def lineText (text : String) (number : Nat) : Except OutOfBounds String :=
  match line? text number with
  | some line => .ok (String.ofList line)
  | none => .error ⟨number, 0⟩

end SymbolAtlas
