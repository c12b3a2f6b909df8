import SymbolAtlas.Path
import SymbolAtlas.SymbolTable

/-!
# Import indexes

An import index holds compiled modules together with the imports between them,
turned around: for each binding, the modules that import it.

A binding is a name that is bound in one module, by a declaration or by an
import.  Importing `Shape` from `a` in `b` binds `Shape` in `b` to `Shape` in
`a`; importing `Shape as Form` binds `Form` in `b` instead.

## Main Definitions

* `Binding`, `Importer`, `ImportIndex`.
* `ImportIndex.insert`, `ImportIndex.remove`, `ImportIndex.ofModules`.
* `ImportIndex.module?` and `ImportIndex.importersOf`.
-/

namespace SymbolAtlas

/-- A name that is bound in a module. -/
structure Binding where
  module : Path
  name : String
deriving DecidableEq, Repr

/-- Bindings are the same when their names are and their modules have the same
path. -/
def Binding.same (a b : Binding) : Bool := a.module.same b.module && a.name == b.name

/-- The binding that an imported symbol is taken from. -/
def ImportedSymbol.sourceBinding (s : ImportedSymbol) : Binding :=
  ⟨s.source.module, s.source.name⟩

/-- One import of a binding. -/
structure Importer where
  /-- The importing module. -/
  module : Path
  /-- The name that is bound in the importing module. -/
  name : String
  /-- Where the imported name stands in the import statement. -/
  sourceSpan : Span
  aliased : Bool
deriving DecidableEq, Repr

/-- The binding that an import makes. -/
def Importer.binding (i : Importer) : Binding := ⟨i.module, i.name⟩

/-- The import that an imported symbol of a module stands for. -/
def ImportedSymbol.importer (module : Path) (s : ImportedSymbol) : Importer :=
  ⟨module, s.name, s.source.span, s.aliased⟩

/-- Compiled modules, and for each binding the imports of it. -/
structure ImportIndex where
  modules : List Module
  importers : List (Binding × List Importer)

/-- Enter one more import of a binding, after those there are already. -/
def addImporter (source : Binding) (importer : Importer) :
    List (Binding × List Importer) → List (Binding × List Importer)
  | [] => [(source, [importer])]
  | (other, known) :: rest =>
    if other.same source then (other, known ++ [importer]) :: rest
    else (other, known) :: addImporter source importer rest

namespace ImportIndex

/-- The index of no modules. -/
def empty : ImportIndex := ⟨[], []⟩

/-- The indexed module with a given path. -/
def module? (index : ImportIndex) (path : Path) : Option Module :=
  index.modules.find? (·.path.same path)

/-- The index without a module and without the imports in it. -/
def remove (index : ImportIndex) (path : Path) : ImportIndex :=
  match index.module? path with
  | none => index
  | some _ =>
    { modules := index.modules.filter (!·.path.same path)
      importers :=
        (index.importers.map fun entry =>
          (entry.1, entry.2.filter (!·.module.same path))).filter (!·.2.isEmpty) }

/-- The index with one more module at its end, which takes the place of one with
the same path. -/
def insert (index : ImportIndex) (m : Module) : ImportIndex :=
  let others := index.remove m.path
  { modules := others.modules ++ [m]
    importers :=
      m.table.imported.foldl
        (fun known s => addImporter s.sourceBinding (s.importer m.path) known)
        others.importers }

/-- The index of some modules, later ones taking the place of earlier ones. -/
def ofModules (modules : List Module) : ImportIndex := modules.foldl insert empty

/-- The imports of a binding. -/
def importersOf (index : ImportIndex) (b : Binding) : List Importer :=
  match index.importers.find? (·.1.same b) with
  | some entry => entry.2
  | none => []

/-- How many symbols the indexed modules import. -/
def importCount (index : ImportIndex) : Nat :=
  (index.modules.flatMap (·.table.imported)).length

/-- How many imports of bindings are known. -/
def edgeCount (index : ImportIndex) : Nat :=
  (index.importers.flatMap (·.2)).length

end ImportIndex

end SymbolAtlas
