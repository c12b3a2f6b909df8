import SymbolAtlas.Compiler.Basic

/-!
# Completing import statements

## Main Definitions

* `completePackagePath`: names that continue a package path.
* `completeImportSymbol`: names that can be imported from a package.
-/

namespace SymbolAtlas

/-- The names that can continue a package path that is being typed in a source
file. -/
def completePackagePath (config : Config) (tree : FileTree) (source : Path)
    (partialPath : String) : List String :=
  packageCandidates tree source partialPath config.packagesFolder config.extension

/-- The names that a module declares and that begin in a given way. -/
def Module.declaredNames (m : Module) (beginning : String) : List String :=
  (m.table.declared.map (·.name)).filter fun name => beginning.toList.isPrefixOf name.toList

/-- The names that the module of a package declares and that begin in a given
way.  A module that is missing or does not compile has none. -/
def completeImportSymbol {σ : Type} (c : Compiler σ) (config : Config) (source : Path)
    (package beginning : String) : StateM σ (List String) := do
  match packageModule? (← c.currentTree) source (.parse package) config.packagesFolder
      config.extension with
  | none => return []
  | some target =>
    match ← c.compile target none with
    | .error _ => return []
    | .ok m => return m.declaredNames beginning

end SymbolAtlas
