import SymbolAtlas.Proofs.ChangedContents

/-!
# File trees with other texts

To change the texts of files is one way to change their contents, so a tree with other
texts has the same places as before.

## Main Definitions

* `FileTree.mapTexts`: the tree with other texts, each depending on its place.

## Main Statements

* `FileTree.mapTexts_eq_mapContents`: only contents are changed.
* `FileTree.readText_mapTexts`: the new text of a file.
* `FileTree.canonical_mapTexts`, `resolvePackage?_mapTexts`, `Workspace.scan_mapTexts`:
  what stays the same.
-/

namespace SymbolAtlas

/-- The contents with another text. -/
def Contents.map (f : String → String) : Contents → Contents
  | text source => text (f source)
  | undecodable => undecodable

namespace Entry

mutual

/-- The entry that is reached through some names, with other texts. -/
def mapTexts (f : List EntryName → String → String) (names : List EntryName) : Entry → Entry
  | file contents => file (contents.map (f names))
  | folder children => folder (mapTextsEach f names children)

/-- The entries of the folder that is reached through some names, with other
texts. -/
def mapTextsEach (f : List EntryName → String → String) (names : List EntryName) :
    List (EntryName × Entry) → List (EntryName × Entry)
  | [] => []
  | (name, entry) :: rest => (name, mapTexts f (names ++ [name]) entry) :: mapTextsEach f names rest

end

variable (f : List EntryName → String → String)

mutual

theorem mapTexts_eq_mapContents (names : List EntryName) : (entry : Entry) →
    entry.mapTexts f names = entry.mapContents (fun names => .map (f names)) names
  | file contents => by rw [mapTexts, mapContents]
  | folder children => by
    rw [mapTexts, mapContents, mapTextsEach_eq_mapContentsEach names children]

theorem mapTextsEach_eq_mapContentsEach (names : List EntryName) :
    (children : List (EntryName × Entry)) →
    mapTextsEach f names children = mapContentsEach (fun names => .map (f names)) names children
  | [] => by rw [mapTextsEach, mapContentsEach]
  | (name, entry) :: rest => by
    rw [mapTextsEach, mapContentsEach, mapTexts_eq_mapContents (names ++ [name]) entry,
      mapTextsEach_eq_mapContentsEach names rest]

end

variable {f}

mutual

/-- An entry stays as it is when its texts do. -/
theorem mapTexts_eq_self (hf : ∀ names text, f names text = text) (names : List EntryName) :
    (entry : Entry) → entry.mapTexts f names = entry
  | file (.text source) => by rw [mapTexts, Contents.map, hf]
  | file .undecodable => by rw [mapTexts, Contents.map]
  | folder children => by rw [mapTexts, mapTextsEach_eq_self hf names children]

theorem mapTextsEach_eq_self (hf : ∀ names text, f names text = text) (names : List EntryName) :
    (children : List (EntryName × Entry)) → mapTextsEach f names children = children
  | [] => by rw [mapTextsEach]
  | (name, entry) :: rest => by
    rw [mapTextsEach, mapTexts_eq_self hf (names ++ [name]) entry,
      mapTextsEach_eq_self hf names rest]

end

end Entry

namespace FileTree

/-- The tree with other texts, each depending on the names that lead to it. -/
def mapTexts (f : List EntryName → String → String) (tree : FileTree) : FileTree :=
  { tree with children := Entry.mapTextsEach f [] tree.children }

variable (f : List EntryName → String → String) (tree : FileTree)

/-- Other texts are other contents. -/
theorem mapTexts_eq_mapContents :
    tree.mapTexts f = tree.mapContents fun names => .map (f names) := by
  rw [mapTexts, Entry.mapTextsEach_eq_mapContentsEach]
  rfl

theorem canonical_mapTexts (p : Path) : (tree.mapTexts f).canonical p = tree.canonical p := by
  rw [mapTexts_eq_mapContents, canonical_mapContents]

/-- The new text of a file. -/
theorem readText_mapTexts {names : List EntryName} {text : String}
    (h : tree.at? names = some (.file (.text text))) :
    (tree.mapTexts f).readText (.ofNames names) = .ok (f names text) := by
  have hlocate : tree.locate (.ofNames names) = .ok names := locate_ofNames (by rw [h]; rfl)
  rw [mapTexts_eq_mapContents, readText, locate_mapContents, hlocate]
  simp only [at?_mapContents, h, Option.map_some, Entry.mapContents, Contents.map]

end FileTree

theorem resolvePackage?_mapTexts (f : List EntryName → String → String) (tree : FileTree)
    (folder : Path) (package : PackagePath) (searchFolders : List Path) (extension : String) :
    resolvePackage? (tree.mapTexts f) folder package searchFolders extension =
      resolvePackage? tree folder package searchFolders extension := by
  rw [FileTree.mapTexts_eq_mapContents, resolvePackage?_mapContents]

/-- A workspace finds the same module files. -/
theorem Workspace.scan_mapTexts (f : List EntryName → String → String) (tree : FileTree)
    (extension : String) (root : Path) :
    Workspace.scan (tree.mapTexts f) extension root = Workspace.scan tree extension root := by
  rw [FileTree.mapTexts_eq_mapContents, scan_mapContents]

end SymbolAtlas
