import SymbolAtlas.Text.Position

/-!
# Tokens of module text

A module is read as words, numbers, quoted strings, braces, commas, dots and
single characters of punctuation.  Blanks and comments separate tokens and are
not tokens themselves.

## Main Definitions

* `Token.Kind`: what a token is.
* `Token`: a kind, the characters the token is made of and where it starts.
* `Cursor`: a place in a text, by byte offset and by position at once.
-/

namespace SymbolAtlas

/-- A place in a text: its byte offset in the UTF-8 form, its line and its
column in characters. -/
structure Cursor where
  offset : Nat
  line : Nat
  column : Nat
deriving DecidableEq, Repr

namespace Cursor

/-- The beginning of a text. -/
def start : Cursor := ⟨0, 0, 0⟩

/-- The place after one more character: a line feed begins a new line. -/
def advance (place : Cursor) (c : Char) : Cursor :=
  if c = '\n' then ⟨place.offset + c.utf8Size, place.line + 1, 0⟩
  else ⟨place.offset + c.utf8Size, place.line, place.column + 1⟩

/-- The place after some more characters. -/
def advanceAll (place : Cursor) (cs : List Char) : Cursor := cs.foldl advance place

/-- A place as a line and a column. -/
def position (place : Cursor) : Position := ⟨place.line, place.column⟩

end Cursor

namespace Token

/-- What a token is.  The six reserved words have kinds of their own. -/
inductive Kind where
  | fromWord
  | importWord
  | asWord
  | typeWord
  | interfaceWord
  | serviceWord
  | identifier
  | number
  | quoted
  | openBrace
  | closeBrace
  | comma
  | dot
  | punctuation
deriving DecidableEq, Repr

end Token

/-- A token: its kind, its characters and the place where it starts. -/
structure Token where
  kind : Token.Kind
  lexeme : String
  start : Cursor
deriving DecidableEq, Repr

namespace Token

/-- The byte offset at which a token starts. -/
def startOffset (t : Token) : Nat := t.start.offset

/-- The byte offset directly behind a token. -/
def stopOffset (t : Token) : Nat := t.start.offset + t.lexeme.utf8ByteSize

/-- Where a token starts. -/
def position (t : Token) : Position := t.start.position

end Token

end SymbolAtlas
