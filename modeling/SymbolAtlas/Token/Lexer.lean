import SymbolAtlas.SyntaxError
import SymbolAtlas.Text.Word
import SymbolAtlas.Token.Basic

/-!
# Reading tokens

Text is read from left to right, and at each place the longest lexeme is taken.
The first character decides what can stand there, so `firstLexeme` only has to
say how many further characters belong to the lexeme:

* a run of blanks, a comment from two slashes to the end of the line, and a
  comment between slash-star and the first star-slash behind it are skipped;
* a word is an identifier unless it is one of the six reserved words;
* a number is a digit with the word characters behind it and an optional
  fraction, a dot and at least one digit;
* a quoted string ends at the first quote that no backslash escapes, and cannot
  contain a line feed;
* braces, comma, dot and every other character stand for themselves.

Reading fails at a quote or at a slash-star that is never closed.

## Main Definitions

* `firstLexeme`: the lexeme at the beginning of a text.
* `tokensFrom`, `tokenize`: the tokens of a text.
-/

namespace SymbolAtlas

/-- Blanks are space, tab, carriage return, line feed and form feed. -/
def isBlank (c : Char) : Bool :=
  c == ' ' || c == '\t' || c == '\r' || c == '\n' || c == '\x0c'

/-- Words begin with a letter or an underscore. -/
def isWordStart (c : Char) : Bool := isLetter c || c == '_'

/-- The kind of a word: reserved, or an identifier. -/
def wordKind (word : List Char) : Token.Kind :=
  if word = ['f', 'r', 'o', 'm'] then .fromWord
  else if word = ['i', 'm', 'p', 'o', 'r', 't'] then .importWord
  else if word = ['a', 's'] then .asWord
  else if word = ['t', 'y', 'p', 'e'] then .typeWord
  else if word = ['i', 'n', 't', 'e', 'r', 'f', 'a', 'c', 'e'] then .interfaceWord
  else if word = ['s', 'e', 'r', 'v', 'i', 'c', 'e'] then .serviceWord
  else .identifier

/-- The kind of a character that is a token by itself. -/
def singleKind (c : Char) : Token.Kind :=
  if c = '\x7b' then .openBrace
  else if c = '\x7d' then .closeBrace
  else if c = ',' then .comma
  else if c = '.' then .dot
  else .punctuation

/-- How many characters there are up to the end of the first star-slash. -/
def commentLength : List Char → Option Nat
  | '*' :: '/' :: _ => some 2
  | _ :: rest => (commentLength rest).map (· + 1)
  | [] => none

/-- How many characters there are up to and including the quote that closes a
string.  A backslash takes the next character with it, which must not be a line
feed. -/
def quotedLength : List Char → Option Nat
  | [] => none
  | '"' :: _ => some 1
  | '\\' :: c :: rest => if c = '\n' then none else (quotedLength rest).map (· + 2)
  | c :: rest => if c = '\n' || c = '\\' then none else (quotedLength rest).map (· + 1)

/-- The length of the fraction of a number: a dot and the digits behind it, or
nothing when no digit follows. -/
def fractionLength : List Char → Nat
  | '.' :: rest =>
    let digits := (rest.takeWhile isDigitChar).length
    if digits = 0 then 0 else digits + 1
  | _ => 0

/-- The length of what follows the first digit of a number. -/
def numberLength (rest : List Char) : Nat :=
  (rest.takeWhile isWordChar).length + fractionLength (rest.dropWhile isWordChar)

/-- A lexeme at the beginning of a text: how many characters it has behind the
first, and what kind of token it is, if it is one. -/
structure Lexeme where
  kind : Option Token.Kind
  further : Nat
deriving DecidableEq, Repr

/-- The lexeme at the beginning of a text, or nothing when a string or a comment
begins there that is never closed. -/
def firstLexeme (c : Char) (rest : List Char) : Option Lexeme :=
  if isBlank c then some ⟨none, (rest.takeWhile isBlank).length⟩
  else if isWordStart c then
    let word := c :: rest.takeWhile isWordChar
    some ⟨some (wordKind word), (rest.takeWhile isWordChar).length⟩
  else if isDigitChar c then some ⟨some .number, numberLength rest⟩
  else if c = '"' then (quotedLength rest).map (⟨some .quoted, ·⟩)
  else if c = '/' then
    match rest with
    | '/' :: _ => some ⟨none, (rest.takeWhile (· ≠ '\n')).length⟩
    -- the body starts behind the star, so slash-star-slash does not close itself
    | '*' :: body => (commentLength body).map fun n => ⟨none, n + 1⟩
    | _ => some ⟨some .punctuation, 0⟩
  else some ⟨some (singleKind c), 0⟩

/-- The tokens of a text that begins at a given place, or an error at the
first place where no lexeme can be read. -/
def tokensFrom (place : Cursor) : List Char → Except SyntaxError (List Token)
  | [] => .ok []
  | c :: rest =>
    match firstLexeme c rest with
    | none => .error (.unrecognised place.position)
    | some lexeme =>
      let chars := c :: rest.take lexeme.further
      match tokensFrom (place.advanceAll chars) (rest.drop lexeme.further) with
      | .error e => .error e
      | .ok tokens =>
        match lexeme.kind with
        | none => .ok tokens
        | some kind => .ok (⟨kind, String.ofList chars, place⟩ :: tokens)
termination_by text => text.length
decreasing_by simp only [List.length_drop, List.length_cons]; omega

/-- The tokens of a text, or an error at the first place where no lexeme can
be read. -/
def tokenize (text : String) : Except SyntaxError (List Token) :=
  tokensFrom Cursor.start text.toList

end SymbolAtlas
