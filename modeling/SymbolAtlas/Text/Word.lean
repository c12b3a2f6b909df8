import SymbolAtlas.Text.Lines
import SymbolAtlas.Text.Position

/-!
# Words under a caret, and whether a place still holds a word

A word is a run of ASCII letters, digits and underscores.  `wordAt` finds the
longest run that contains a caret or touches it on either side.  `holdsAt` and
`holds` check that a text still has an expected word where one was reported.

## Main Definitions

* `isWordChar`: the characters words are made of.
* `wordAt`: the word under a caret.
* `holdsAt`, `holds`: the expected text stands at a position, fills a span.
-/

namespace SymbolAtlas

/-- Whether a character is an ASCII letter. -/
def isLetter (c : Char) : Bool :=
  ('a'.toNat ≤ c.toNat && c.toNat ≤ 'z'.toNat) || ('A'.toNat ≤ c.toNat && c.toNat ≤ 'Z'.toNat)

/-- Whether a character is an ASCII digit. -/
def isDigitChar (c : Char) : Bool :=
  '0'.toNat ≤ c.toNat && c.toNat ≤ '9'.toNat

/-- Words are made of ASCII letters, digits and underscores. -/
def isWordChar (c : Char) : Bool := isLetter c || isDigitChar c || c == '_'

/-- A word found in a text, with its extent.  Both are empty when there is no
word at the caret. -/
structure Word where
  text : String
  span : Span
deriving DecidableEq, Repr

/-- Whether no word was found. -/
def Word.isEmpty (w : Word) : Bool := w.text == ""

/-- The longest run of word characters around a column of one line. -/
def wordAround (line : List Char) (number column : Nat) : Word :=
  let left := ((line.take column).reverse.takeWhile isWordChar).reverse
  let right := (line.drop column).takeWhile isWordChar
  ⟨String.ofList (left ++ right), ⟨number, column - left.length, column + right.length⟩⟩

/-- The word under a caret: the run of word characters that contains the caret,
ends right before it or starts at it.  The caret may stand directly behind the
last character of its line, and no further. -/
def wordAt (text : String) (line column : Nat) : Except OutOfBounds Word :=
  match line? text line with
  | none => .error ⟨line, column⟩
  | some chars =>
    if column ≤ chars.length then .ok (wordAround chars line column)
    else .error ⟨line, column⟩

/-- Whether the text that starts at a position is `expected`. -/
def holdsAt (text : String) (place : Position) (expected : String) : Bool :=
  match line? text place.line with
  | none => false
  | some chars =>
    place.column ≤ chars.length && expected.toList.isPrefixOf (chars.drop place.column)

/-- Whether a span is filled by `expected`, exactly. -/
def holds (text : String) (span : Span) (expected : String) : Bool :=
  span.length == expected.length && holdsAt text span.position expected

end SymbolAtlas
