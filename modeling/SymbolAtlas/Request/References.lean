import SymbolAtlas.ImportIndex.Spread
import SymbolAtlas.Request.Search
import SymbolAtlas.Text.Word

/-!
# Finding references

The references of a symbol are the locations that a rename would change, but a
search for them makes do with the modules that compile.

## Main Definitions

* `ReferenceError`: why a search cannot begin.
* `referencesIn`: the locations bound to a name, among given modules.
* `findReferences`: the references of the word under a caret.
-/

namespace SymbolAtlas

/-- Why a search for references cannot begin. -/
inductive ReferenceError where
  /-- The module with the caret does not compile. -/
  | fault (cause : Fault)
  /-- The root is not a folder. -/
  | root (cause : NotAFolder)
deriving DecidableEq, Repr

/-- What is reported for a search that cannot begin. -/
def ReferenceError.message : ReferenceError → String
  | fault cause => "cannot search references: " ++ cause.message
  | root cause => "cannot search references: " ++ cause.message

/-- The locations bound to a name, among some modules.  When the climb to the
owner of the name leaves these modules, the search starts from the name itself. -/
def referencesIn (modules : List Module) (start : Binding) : List (Path × Span) :=
  let index := ImportIndex.ofModules modules
  match index.rootBinding start with
  | .ok root => (index.spread root).pairs
  | .error _ => (index.spread start).pairs

/-- The name under a caret, if it is bound. -/
def Module.boundNameAt? (m : Module) (line column : Nat) : Option String :=
  match wordAt m.source line column with
  | .error _ => none
  | .ok word => if m.table.contains word.text then some word.text else none

/-- Every location that is bound to the word under a caret, by module and place.
Modules that do not compile are left out. -/
def findReferences {σ : Type} (c : Compiler σ) (config : Config) (file : Path)
    (line column : Nat) (root : Path) :
    StateM σ (Except ReferenceError (List (Path × Span))) := do
  match ← c.compile file none with
  | .error fault => return .error (.fault fault)
  | .ok start =>
    match start.boundNameAt? line column with
    | none => return .ok []
    | some name =>
      match Workspace.scan (← c.currentTree) config.extension root with
      | .error e => return .error (.root e)
      | .ok workspace =>
        let results ← workspace.loadAll c
        -- the start module goes in last and takes the place of its own workspace copy
        return .ok (referencesIn (compiledModules results ++ [start]) ⟨start.path, name⟩)

end SymbolAtlas
