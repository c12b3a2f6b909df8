import SymbolAtlas.Path

/-!
# Configuration

Where modules are looked up and what their files are called.

## Main Definitions

* `Config`, its default and `Config.ofHome`, the configuration of an installation.
* `Config.isModuleFile`: whether a path names a module file.
* `Config.searchFolders`: where absolute package paths are looked up.
-/

namespace SymbolAtlas

/-- Where modules are looked up and what their files are called. -/
structure Config where
  /-- The folders that are searched, in order, for absolute package paths. -/
  includePaths : List Path
  /-- The folder of the library packages, which is searched last. -/
  packagesFolder : Option Path
  /-- The extension of module files, without the dot. -/
  extension : String
deriving DecidableEq, Repr

namespace Config

/-- No folders to search, and module files that end in `ol`. -/
def default : Config := ⟨[], none, "ol"⟩

/-- The configuration for an installation of the language, whose packages lie in
its subfolder `packages`; the default when there is no installation. -/
def ofHome (home : Option String) : Config :=
  { default with packagesFolder := home.map fun folder => Path.join ⟨folder⟩ "packages" }

/-- Search further folders, after those there are already. -/
def addIncludePaths (c : Config) (paths : List Path) : Config :=
  { c with includePaths := c.includePaths ++ paths }

/-- Whether nothing was changed from the default. -/
def isDefault (c : Config) : Bool :=
  c.includePaths.isEmpty && c.packagesFolder.isNone && c.extension == default.extension

/-- Whether a path names a module file. -/
def isModuleFile (c : Config) (p : Path) : Bool := p.extension? == some c.extension

/-- The folders in which absolute package paths are looked up, in order. -/
def searchFolders (c : Config) : List Path := c.includePaths ++ c.packagesFolder.toList

end Config

end SymbolAtlas
