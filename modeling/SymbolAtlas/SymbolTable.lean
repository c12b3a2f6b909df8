import SymbolAtlas.Outline.Basic
import SymbolAtlas.Path

/-!
# Symbol tables

The symbol table of a module says which names are bound in it, by a declaration
or by an import, and where each name is used.  A name is bound at most once.

## Main Definitions

* `DeclaredSymbol`, `ImportedSymbol` and `Symbol`, one of the two.
* `SymbolTable`, with `declare`, `bindImport` and `recordUse` to fill it and
  `lookup` and `usesOf` to read it.
* `Module`: a compiled module, with the text it was compiled from.
-/

namespace SymbolAtlas

/-- A symbol that is declared in the module that owns the table. -/
structure DeclaredSymbol where
  name : String
  kind : DeclKind
  /-- Where the declared name stands. -/
  span : Span
deriving DecidableEq, Repr

/-- What an import statement takes a name from: the module that it names, which
may itself have imported the name. -/
structure ImportSource where
  module : Path
  /-- The name as that module knows it. -/
  name : String
  /-- Where that name stands in the import statement. -/
  span : Span
deriving DecidableEq, Repr

/-- The declaration behind an imported name. -/
structure Origin where
  module : Path
  name : String
  kind : DeclKind
  /-- Where the declaration stands in its module. -/
  span : Span
deriving DecidableEq, Repr

/-- A symbol that an import statement brings into scope. -/
structure ImportedSymbol where
  /-- The name it is bound to, which is the alias when there is one. -/
  name : String
  /-- Where the binding token stands. -/
  span : Span
  source : ImportSource
  origin : Origin
  /-- Whether the import has an alias, even one that repeats the name. -/
  aliased : Bool
deriving DecidableEq, Repr

/-- What a name is bound to in one module. -/
inductive Symbol where
  | declared (symbol : DeclaredSymbol)
  | imported (symbol : ImportedSymbol)
deriving DecidableEq, Repr

namespace Symbol

/-- The name that is bound. -/
def name : Symbol → String
  | declared symbol => symbol.name
  | imported symbol => symbol.name

/-- Where the name is bound. -/
def span : Symbol → Span
  | declared symbol => symbol.span
  | imported symbol => symbol.span

/-- The declaration behind a symbol that is bound in `module`. -/
def originIn (module : Path) : Symbol → Origin
  | declared symbol => ⟨module, symbol.name, symbol.kind, symbol.span⟩
  | imported symbol => symbol.origin

end Symbol

/-- The symbols of one module and the places where names are used.  The key under which a
symbol is kept is its own name, so the symbols stand in lists and are found by their
names; only the uses are kept under a name of their own. -/
structure SymbolTable where
  /-- The module that the table belongs to. -/
  owner : Path
  /-- The declared symbols, in the order in which they were declared. -/
  declared : List DeclaredSymbol
  /-- The imported symbols, in the order in which they were imported. -/
  imported : List ImportedSymbol
  /-- For each name the places where it is used, in the order of recording. -/
  uses : List (String × List Span)
deriving DecidableEq, Repr

/-- Record one more place under a name.  A place that is known already is not
recorded again. -/
def addUse (name : String) (span : Span) : List (String × List Span) → List (String × List Span)
  | [] => [(name, [span])]
  | (other, spans) :: rest =>
    if other = name then
      (other, if spans.contains span then spans else spans ++ [span]) :: rest
    else (other, spans) :: addUse name span rest

namespace SymbolTable

/-- The table of a module in which nothing is bound yet. -/
def empty (owner : Path) : SymbolTable := ⟨owner, [], [], []⟩

/-- The declaration of a name. -/
def declared? (t : SymbolTable) (name : String) : Option DeclaredSymbol :=
  t.declared.find? (·.name = name)

/-- The import of a name. -/
def imported? (t : SymbolTable) (name : String) : Option ImportedSymbol :=
  t.imported.find? (·.name = name)

/-- What a name is bound to. -/
def lookup (t : SymbolTable) (name : String) : Option Symbol :=
  match t.declared? name with
  | some symbol => some (.declared symbol)
  | none => (t.imported? name).map .imported

/-- Whether a name is bound. -/
def contains (t : SymbolTable) (name : String) : Bool :=
  t.declared.any (·.name = name) || t.imported.any (·.name = name)

/-- Bind a name by a declaration, or say where it is bound already. -/
def declare (t : SymbolTable) (symbol : DeclaredSymbol) : Except Span SymbolTable :=
  -- imports are looked at first, which `lookup` does last
  match t.imported? symbol.name with
  | some existing => .error existing.span
  | none =>
    match t.declared? symbol.name with
    | some existing => .error existing.span
    | none => .ok { t with declared := t.declared ++ [symbol] }

/-- Bind a name by an import, or say where it is bound already. -/
def bindImport (t : SymbolTable) (symbol : ImportedSymbol) : Except Span SymbolTable :=
  match t.lookup symbol.name with
  | some existing => .error existing.span
  | none => .ok { t with imported := t.imported ++ [symbol] }

/-- Record that a name is used at some place. -/
def recordUse (t : SymbolTable) (name : String) (span : Span) : SymbolTable :=
  { t with uses := addUse name span t.uses }

/-- Record an identifier if it is bound. -/
def recordBound (t : SymbolTable) (identifier : Identifier) : SymbolTable :=
  if t.contains identifier.text then t.recordUse identifier.text identifier.span else t

/-- The places where a name is used. -/
def usesOf (t : SymbolTable) (name : String) : List Span := (t.uses.lookup name).getD []

/-- The number of bound names. -/
def size (t : SymbolTable) : Nat := t.declared.length + t.imported.length

/-- Whether no name is bound. -/
def isEmpty (t : SymbolTable) : Bool := t.declared.isEmpty && t.imported.isEmpty

end SymbolTable

/-- A compiled module: where it is, the text that was compiled and its symbols. -/
structure Module where
  path : Path
  source : String
  table : SymbolTable
deriving DecidableEq, Repr

end SymbolAtlas
