import SymbolAtlas.Compiler.Basic
import SymbolAtlas.FileRoster

/-!
# Workspaces

A workspace is what one request knows about a root folder: the module files that
were found beneath it, and the texts that were read since.

## Main Definitions

* `Workspace.scan`: find the module files beneath a root.
* `Workspace.contains`: whether a path lies beneath the root.
* `Workspace.modulePaths`: the known module files in path order.
* `Workspace.source`: the text of a file, which is read at most once.
* `Workspace.loadAll`: compile all module files.
-/

namespace SymbolAtlas

/-- The root of a workspace is not a folder. -/
structure NotAFolder where
  root : Path
deriving DecidableEq, Repr

/-- What is reported for a root that is not a folder. -/
def NotAFolder.message (e : NotAFolder) : String :=
  "workspace root " ++ e.root.spelling ++ " is not a directory"

/-- A root folder and the files that are known in it. -/
structure Workspace where
  root : Path
  roster : FileRoster
deriving DecidableEq, Repr

/-- Whether the last of some names has the given extension. -/
def hasExtension (extension : String) (names : List EntryName) : Bool :=
  names.getLast?.bind (Path.nameExtension? ·.text) == some extension

/-- The module files beneath the folder reached through some names. -/
def moduleFilesBelow (extension : String) (names : List EntryName) (folder : Entry) : List Path :=
  ((folder.walk.map (names ++ ·)).filter (hasExtension extension)).map Path.ofNames

namespace Workspace

/-- Find the module files beneath a root: those with the given extension, at any
depth. -/
def scan (tree : FileTree) (extension : String) (root : Path) : Except NotAFolder Workspace :=
  match tree.locate root with
  | .error _ => .error ⟨root⟩
  | .ok names =>
    match tree.at? names with
    | some (.folder children) =>
      .ok ⟨.ofNames names,
        FileRoster.empty.insertAll (moduleFilesBelow extension names (.folder children))⟩
    | _ => .error ⟨.ofNames names⟩

/-- Whether a path leads to a place beneath the root. -/
def contains (w : Workspace) (tree : FileTree) (p : Path) : Bool :=
  (tree.canonical p).isBeneath w.root

/-- The known files in path order. -/
def modulePaths (w : Workspace) : List Path := sorted Path.before w.roster.paths

/-- The text of a file.  It is read once and kept; a file that cannot be read is
known from then on, but nothing is kept for it. -/
def source (w : Workspace) (tree : FileTree) (p : Path) :
    Except ReadError String × Workspace :=
  let path := tree.canonical p
  let (id, roster) := w.roster.insert path
  match roster.text? id with
  | some text => (.ok text, { w with roster := roster })
  | none =>
    -- the path stays in the roster even if reading it fails
    match tree.readText path with
    | .ok text => (.ok text, { w with roster := roster.setText id text })
    | .error e => (.error e, { w with roster := roster })

/-- Compile all known files, in path order. -/
def loadAll {σ : Type} (c : Compiler σ) (w : Workspace) :
    StateM σ (List (Path × Except Fault Module)) :=
  w.modulePaths.mapM fun p => do
    let result ← c.compile p none
    return (p, result)

end Workspace

end SymbolAtlas
