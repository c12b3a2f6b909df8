import SymbolAtlas.Compiler.Crawl

/-!
# Compilers as requests see them

A request compiles modules one after the other, and files may change while it
runs.  A `Compiler` therefore works on a state of the world, of which the file
tree is one view: each compilation sees the world as it is and may leave it
changed.

## Main Definitions

* `Compiler`: compilation in a world that may change.
* `Config.compiler`: the compiler of a configuration, in a world that does not.
-/

namespace SymbolAtlas

/-- Compilation in a world with states `σ`. -/
structure Compiler (σ : Type) where
  /-- The file tree as it is in a state of the world. -/
  tree : σ → FileTree
  /-- Compile the module at a path, from the given text or from its file. -/
  compile : Path → Option String → StateM σ (Except Fault Module)

/-- The file tree as it is now. -/
def Compiler.currentTree {σ : Type} (c : Compiler σ) : StateM σ FileTree := do
  return c.tree (← get)

/-- The compiler of a configuration, over file trees that nobody else changes. -/
def Config.compiler (config : Config) : Compiler FileTree where
  tree := id
  compile path source := do
    return config.compileModule (← get) path source

end SymbolAtlas
