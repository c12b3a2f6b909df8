import SymbolAtlas.Compiler.Basic
import SymbolAtlas.FileTree.Update

/-!
# A file that changes while a request runs

A request may meet a file twice: once when it compiles it and once when it looks
at its text again.  A `Disturbance` changes one file in between, right after it
was compiled successfully for a given number of times, as another program that
saves or deletes the file would.

## Main Definitions

* `Disturbance` and the compiler that it gives, `Disturbance.compiler`.
-/

namespace SymbolAtlas

/-- A change to one file at a given moment of a request. -/
structure Disturbance where
  /-- The canonical path of the file. -/
  target : Path
  /-- After how many successful compilations of the file it changes. -/
  after : Nat
  /-- What the file holds from then on; without it, the file is deleted. -/
  replacement : Option Contents

namespace Disturbance

/-- The tree after the change. -/
def apply (d : Disturbance) (tree : FileTree) : FileTree :=
  match d.replacement with
  | some contents => tree.write d.target contents
  | none => tree.delete d.target

/-- The compiler of a configuration in a world where the change happens.  The
world is the tree together with the number of successful compilations of the
file so far; compilations on behalf of another module do not count. -/
def compiler (d : Disturbance) (config : Config) : Compiler (FileTree × Nat) where
  tree := Prod.fst
  compile path source := do
    let (tree, seen) ← get
    match config.compileModule tree path source with
    | .error fault => return .error fault
    | .ok m =>
      if (tree.canonical path).same d.target then
        set (if seen + 1 = d.after then d.apply tree else tree, seen + 1)
      return .ok m

end Disturbance

end SymbolAtlas
