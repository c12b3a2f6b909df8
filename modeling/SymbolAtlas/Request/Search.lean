import SymbolAtlas.Workspace

/-!
# Searching a workspace for symbols

## Main Definitions

* `SymbolMatch`: a symbol whose name contains what was searched for.
* `Module.matching`: the matches in one module.
* `searchWorkspace`: the matches in every module that compiles.
-/

namespace SymbolAtlas

/-- Whether a text contains another. -/
def containsText (wanted : List Char) : List Char → Bool
  | [] => wanted.isEmpty
  | c :: cs => wanted.isPrefixOf (c :: cs) || containsText wanted cs

/-- A symbol whose name contains what was searched for. -/
structure SymbolMatch where
  name : String
  /-- Where the name is bound. -/
  span : Span
  /-- What the declaration behind it declares. -/
  kind : DeclKind
  imported : Bool
deriving DecidableEq, Repr

/-- An imported symbol as a match. -/
def ImportedSymbol.asMatch (s : ImportedSymbol) : SymbolMatch :=
  ⟨s.name, s.span, s.origin.kind, true⟩

/-- A declared symbol as a match. -/
def DeclaredSymbol.asMatch (s : DeclaredSymbol) : SymbolMatch :=
  ⟨s.name, s.span, s.kind, false⟩

/-- The symbols of a module whose names contain the query, the imported ones
first. -/
def Module.matching (m : Module) (query : String) : List SymbolMatch :=
  (m.table.imported.map ImportedSymbol.asMatch ++
    m.table.declared.map DeclaredSymbol.asMatch).filter
    fun found => containsText query.toList found.name.toList

/-- The modules among some results of compilations. -/
def compiledModules (results : List (Path × Except Fault Module)) : List Module :=
  results.filterMap fun result => result.2.toOption

/-- Search the modules beneath a root.  Every module that compiles is listed, in
path order, even if nothing in it matches; modules that do not compile are left
out, and a root that is not a folder has no modules. -/
def searchWorkspace {σ : Type} (c : Compiler σ) (config : Config) (root : Path)
    (query : String) : StateM σ (List (Path × List SymbolMatch)) := do
  match Workspace.scan (← c.currentTree) config.extension root with
  | .error _ => return []
  | .ok workspace =>
    let results ← workspace.loadAll c
    return (compiledModules results).map fun m => (m.path, m.matching query)

end SymbolAtlas
