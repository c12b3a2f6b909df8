import SymbolAtlas.Config
import SymbolAtlas.Fault
import SymbolAtlas.Outline.Parser
import SymbolAtlas.Package.Lookup
import SymbolAtlas.SymbolTable

/-!
# Compiling a module

A module is compiled together with the modules that it imports, so that each
imported name carries the declaration that is behind it.  Within one compilation
every module is built once.  A module that imports one of the modules on whose
behalf it is being built closes an import cycle, which is a fault.

## Main Definitions

* `Crawl`: a computation that may find a fault and that remembers the modules it
  has finished.
* `declareAll`, `bindItems`, `bindStatement`, `buildTable`: the symbol table of a
  module, given how to load the modules that it imports.
* `load`: an imported module, from memory or from its file.
* `Config.compileModule`: the compilation of one module.

## Design Notes

`load` is told how many more modules may be opened.  Modules that are being
built are different files of the tree, so as many as the tree has files is
enough, and with none left the module asked for is one that is being built.
-/

namespace SymbolAtlas

/-- A computation that may find a fault and that remembers the modules it has
finished. -/
abbrev Crawl := StateT (List Module) (Except Fault)

/-- Enter the declarations of a module into its table. -/
def declareAll (path : Path) (declarations : List Declaration) (table : SymbolTable) :
    Except Fault SymbolTable :=
  declarations.foldlM
    (fun table d =>
      match table.declare ⟨d.name.text, d.kind, d.name.span⟩ with
      | .ok table => .ok table
      | .error _ => .error (.duplicateSymbol path d.name.text d.name.span))
    table

/-- Bind one item of an import statement to what the imported module binds its
name to. -/
def bindItem (path : Path) (dependency : Module) (table : SymbolTable) (item : ImportItem) :
    Except Fault SymbolTable :=
  match dependency.table.lookup item.name.text with
  | none => .error (.symbolNotFound path dependency.path item.name.text item.name.span)
  | some symbol =>
    let binding := item.binding
    let bound : ImportedSymbol :=
      { name := binding.text
        span := binding.span
        source := ⟨dependency.path, item.name.text, item.name.span⟩
        origin := symbol.originIn dependency.path
        aliased := item.alias?.isSome }
    match table.bindImport bound with
    | .ok table => .ok table
    | .error _ => .error (.duplicateSymbol path binding.text binding.span)

/-- Bind the items of an import statement to what the imported module binds
their names to. -/
def bindItems (path : Path) (dependency : Module) (items : List ImportItem)
    (table : SymbolTable) : Except Fault SymbolTable :=
  items.foldlM (bindItem path dependency) table

/-- Bind the items of an import statement, after loading the module that it
names. -/
def bindStatement (config : Config) (tree : FileTree) (loadModule : Path → Crawl Module)
    (path : Path) (table : SymbolTable) (statement : ImportStatement) : Crawl SymbolTable :=
  match resolvePackage? tree path.parent statement.package config.searchFolders
      config.extension with
  | none => throw (.moduleNotFound path statement.package statement.first.name.span)
  | some target => do
    let dependency ← loadModule (tree.canonical target)
    bindItems path dependency statement.items table

/-- The symbol table of a module with a given outline. -/
def buildTable (config : Config) (tree : FileTree) (loadModule : Path → Crawl Module)
    (path : Path) (outline : Outline) : Crawl SymbolTable := do
  -- declarations come first, so it is the import that repeats a name which is at fault
  let table ← declareAll path outline.declarations (.empty path)
  let table ← outline.imports.foldlM (bindStatement config tree loadModule path) table
  return outline.identifiers.foldl SymbolTable.recordBound table

/-- The module with a given text. -/
def buildModule (config : Config) (tree : FileTree) (loadModule : Path → Crawl Module)
    (path : Path) (source : String) : Crawl Module :=
  match Outline.parse source with
  | .error cause => throw (.malformed path cause)
  | .ok outline => do
    let table ← buildTable config tree loadModule path outline
    return ⟨path, source, table⟩

/-- The text of a module, or the fault that its file cannot be read. -/
def readModule (tree : FileTree) (path : Path) : Except Fault String :=
  match tree.readText path with
  | .ok source => .ok source
  | .error cause => .error (.unreadable path cause)

/-- Load a module on behalf of one that imports it.  `opened` lists the modules
that are being built and `budget` says how many more may be opened. -/
def load (config : Config) (tree : FileTree) :
    (budget : Nat) → (opened : List Path) → (importer target : Path) → Crawl Module
  | budget, opened, importer, target => do
    let finished ← get
    match finished.find? (·.path.same target) with
    | some m => return m
    | none =>
      if opened.any (·.same target) then throw (.importCycle importer target)
      else
        match budget with
        | 0 => throw (.importCycle importer target)
        | budget + 1 =>
          let source ← readModule tree target
          let m ← buildModule config tree
            (fun next => load config tree budget (target :: opened) target next) target source
          modify (m :: ·)
          return m

namespace Config

/-- Compile the module at a path.  Its text is read from the tree unless a
buffer is given for it; the modules that it imports are always read from the
tree. -/
def compileModule (config : Config) (tree : FileTree) (file : Path) (buffer : Option String) :
    Except Fault Module := do
  let path := tree.canonical file
  let source ← match buffer with
    | some text => .ok text
    | none => readModule tree path
  -- the module itself is being built and is never among the finished ones
  let loadModule := load config tree tree.fileCount [path] path
  (buildModule config tree loadModule path source).run' []

end Config

end SymbolAtlas
