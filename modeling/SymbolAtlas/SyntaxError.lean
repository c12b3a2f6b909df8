import SymbolAtlas.Text.Position

/-!
# Syntax errors

Everything that can be wrong with the text of one module, taken by itself.

## Main Definitions

* `Expectation`: what the grammar required at the place of an error.
* `SyntaxError`, its wording `SyntaxError.message` and its place
  `SyntaxError.position?`.
-/

namespace SymbolAtlas

/-- What the grammar requires at some place inside a statement. -/
inductive Expectation where
  | packageName
  | importWord
  | symbolName
  | aliasName
  | declarationName
deriving DecidableEq, Repr

/-- What is required, in words. -/
def Expectation.text : Expectation → String
  | .packageName => "a package name"
  | .importWord => "`import`"
  | .symbolName => "a symbol name"
  | .aliasName => "an alias"
  | .declarationName => "a declaration name"

/-- A lexical or structural error in the text of one module. -/
inductive SyntaxError where
  /-- No lexeme can be read here. -/
  | unrecognised (place : Position)
  /-- Another token stands where the grammar requires something else. -/
  | unexpectedToken (place : Position) (found : String) (expected : Expectation)
  /-- The text ends inside a statement. -/
  | unexpectedEnd (expected : Expectation)
  /-- A closing brace with no open brace before it. -/
  | unmatchedBrace (place : Position)
  /-- An open brace that is never closed. -/
  | unclosedBrace (place : Position)
deriving DecidableEq, Repr

namespace SyntaxError

/-- What is reported for a syntax error. -/
def message : SyntaxError → String
  | unrecognised place => place.display ++ ": unrecognised input"
  | unexpectedToken place found expected =>
    place.display ++ ": unexpected `" ++ found ++ "`, expected " ++ expected.text
  | unexpectedEnd expected => "unexpected end of input, expected " ++ expected.text
  | unmatchedBrace place => place.display ++ ": unmatched `\x7d`"
  | unclosedBrace place => place.display ++ ": `\x7b` is never closed"

/-- Where the error stands; an error at the end of the text has no place. -/
def position? : SyntaxError → Option Position
  | unrecognised place => some place
  | unexpectedToken place _ _ => some place
  | unexpectedEnd _ => none
  | unmatchedBrace place => some place
  | unclosedBrace place => some place

end SyntaxError

end SymbolAtlas
