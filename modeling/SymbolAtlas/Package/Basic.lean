import SymbolAtlas.Text.Split

/-!
# Package paths

A package path such as `.shapes`, `..lib.geometry` or `console` names a module
in an import statement.  Leading dots make it relative: one dot means the
directory of the importing module, and each further dot the directory above.

## Main Definitions

* `PackagePath`: the number of leading dots and the segments behind them.
* `PackagePath.parse` and `PackagePath.display`: reading and writing it.
-/

namespace SymbolAtlas

/-- A dotted package path. -/
structure PackagePath where
  /-- How many dots it begins with; none for an absolute path. -/
  dots : Nat
  segments : List String
deriving DecidableEq, Repr

namespace PackagePath

/-- Read a package path.  Empty segments behind the leading dots are kept, so
that a path that is still being typed can be read too. -/
def parse (text : String) : PackagePath :=
  let chars := text.toList
  let rest := chars.dropWhile (· == '.')
  { dots := (chars.takeWhile (· == '.')).length
    segments := if rest.isEmpty then [] else (cutAt '.' rest).map String.ofList }

/-- A package path as it is written. -/
def display (p : PackagePath) : String :=
  String.ofList (List.replicate p.dots '.') ++ joinNames '.' p.segments

/-- Whether a package path starts from the importing module. -/
def isRelative (p : PackagePath) : Bool := 0 < p.dots

end PackagePath

end SymbolAtlas
