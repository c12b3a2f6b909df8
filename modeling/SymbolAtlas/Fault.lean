import SymbolAtlas.FileTree.Basic
import SymbolAtlas.Package.Basic
import SymbolAtlas.SyntaxError
import SymbolAtlas.Text.Position

/-!
# Faults

Why a module cannot be compiled into a symbol table.  A fault belongs to the
module in which it was met, which may be one that the compiled module imports.

## Main Definitions

* `Fault`, the module it belongs to (`Fault.path`), the place it points at
  (`Fault.span?`) and its wording (`Fault.message`).
-/

namespace SymbolAtlas

/-- Why a module cannot be compiled. -/
inductive Fault where
  /-- The text of the module is not well formed. -/
  | malformed (path : Path) (cause : SyntaxError)
  /-- A name is bound a second time. -/
  | duplicateSymbol (path : Path) (name : String) (span : Span)
  /-- A package path leads to no module file. -/
  | moduleNotFound (path : Path) (package : PackagePath) (span : Span)
  /-- An imported module does not bind a name that is imported from it. -/
  | symbolNotFound (path module : Path) (name : String) (span : Span)
  /-- A module imports one that is still being compiled. -/
  | importCycle (path module : Path)
  /-- The file of the module cannot be read. -/
  | unreadable (path : Path) (cause : ReadError)
deriving DecidableEq, Repr

namespace Fault

/-- The module in which a fault was met. -/
def path : Fault → Path
  | malformed path _ => path
  | duplicateSymbol path _ _ => path
  | moduleNotFound path _ _ => path
  | symbolNotFound path _ _ _ => path
  | importCycle path _ => path
  | unreadable path _ => path

/-- The token that a fault points at, if there is one. -/
def span? : Fault → Option Span
  | malformed _ cause => cause.position?.map Span.ofPosition
  | duplicateSymbol _ _ span => some span
  | moduleNotFound _ _ span => some span
  | symbolNotFound _ _ _ span => some span
  | importCycle _ _ => none
  | unreadable _ _ => none

/-- What is reported for a fault. -/
def message : Fault → String
  | malformed path cause => path.spelling ++ ": " ++ cause.message
  | duplicateSymbol path name span =>
    path.spelling ++ ":" ++ span.display ++ ": `" ++ name ++ "` is already defined"
  | moduleNotFound path package span =>
    path.spelling ++ ":" ++ span.display ++ ": cannot find module `" ++ package.display ++ "`"
  | symbolNotFound path module name span =>
    path.spelling ++ ":" ++ span.display ++ ": module " ++ module.spelling ++
      " does not define `" ++ name ++ "`"
  | importCycle path module => path.spelling ++ ": import cycle through " ++ module.spelling
  | unreadable path cause => path.spelling ++ ": " ++ cause.message

end Fault

end SymbolAtlas
