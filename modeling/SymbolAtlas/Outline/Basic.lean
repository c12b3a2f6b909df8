import SymbolAtlas.Package.Basic
import SymbolAtlas.Text.Position
import SymbolAtlas.Token.Basic

/-!
# Module outlines

The outline of a module is all that name resolution needs of its text: what it
imports, what it declares, and every identifier that may refer to a name.

## Main Definitions

* `Identifier`: an identifier token with its extent.
* `Declaration`, `ImportItem`, `ImportStatement`.
* `Outline`, built up from the end of a text to its beginning by
  `Outline.mention`, `Outline.declare` and `Outline.importing`.
-/

namespace SymbolAtlas

/-- An identifier token with its extent. -/
structure Identifier where
  text : String
  span : Span
deriving DecidableEq, Repr

/-- The identifier that a token spells. -/
def Token.identifier (t : Token) : Identifier :=
  ⟨t.lexeme, Span.ofName t.position t.lexeme⟩

/-- What a top-level declaration declares. -/
inductive DeclKind where
  | type
  | interface
  | service
deriving DecidableEq, Repr

/-- The word that introduces a declaration. -/
def DeclKind.keyword : DeclKind → String
  | .type => "type"
  | .interface => "interface"
  | .service => "service"

/-- A top-level declaration. -/
structure Declaration where
  kind : DeclKind
  name : Identifier
deriving DecidableEq, Repr

/-- One imported name, with the alias it is bound to if it has one. -/
structure ImportItem where
  /-- The name as the imported module knows it. -/
  name : Identifier
  alias? : Option Identifier
deriving DecidableEq, Repr

/-- The token that introduces the binding in the importing module. -/
def ImportItem.binding (item : ImportItem) : Identifier := item.alias?.getD item.name

/-- An import statement.  It names a package and at least one item. -/
structure ImportStatement where
  package : PackagePath
  first : ImportItem
  others : List ImportItem
deriving DecidableEq, Repr

/-- The items of an import statement, in order. -/
def ImportStatement.items (s : ImportStatement) : List ImportItem := s.first :: s.others

/-- All that name resolution needs of one module. -/
structure Outline where
  imports : List ImportStatement
  declarations : List Declaration
  /-- The identifiers in text order.  Declared names and the binding tokens of
  imports are among them; package segments and the names of aliased import items
  are not. -/
  identifiers : List Identifier
deriving DecidableEq, Repr

namespace Outline

/-- The outline of an empty text. -/
def empty : Outline := ⟨[], [], []⟩

/-- The outline with one more identifier in front. -/
def mention (name : Identifier) (o : Outline) : Outline :=
  { o with identifiers := name :: o.identifiers }

/-- The outline with one more declaration in front. -/
def declare (d : Declaration) (o : Outline) : Outline :=
  { o with
    declarations := d :: o.declarations
    identifiers := d.name :: o.identifiers }

/-- The outline with one more import statement in front. -/
def importing (s : ImportStatement) (o : Outline) : Outline :=
  { o with
    imports := s :: o.imports
    identifiers := s.items.map ImportItem.binding ++ o.identifiers }

end Outline

end SymbolAtlas
