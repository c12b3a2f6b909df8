import SymbolAtlas.Proofs.Files

/-!
# File trees with other contents

A tree in which only the contents of files are changed has the same places: paths
lead to the same names, packages to the same files, and a workspace finds the same
module files in it.

## Main Definitions

* `FileTree.mapContents`: the tree with other contents, each depending on its place.
* `FileTree.rewrite`: the tree in which one file has other contents.

## Main Statements

* `FileTree.at?_mapContents`: what stands at a place of the new tree.
* `FileTree.locate_mapContents`, `resolvePackage?_mapContents`,
  `Workspace.scan_mapContents`: what stays the same.
* `FileTree.readText_rewrite_of_ne`: the texts of the other files stay the same.
-/

namespace SymbolAtlas

namespace Entry

mutual

/-- The entry that is reached through some names, with other contents. -/
def mapContents (f : List EntryName → Contents → Contents) (names : List EntryName) :
    Entry → Entry
  | file contents => file (f names contents)
  | folder children => folder (mapContentsEach f names children)

/-- The entries of the folder that is reached through some names, with other
contents. -/
def mapContentsEach (f : List EntryName → Contents → Contents) (names : List EntryName) :
    List (EntryName × Entry) → List (EntryName × Entry)
  | [] => []
  | (name, entry) :: rest =>
    (name, mapContents f (names ++ [name]) entry) :: mapContentsEach f names rest

end

variable (f : List EntryName → Contents → Contents)

theorem lookup_mapContentsEach (names : List EntryName) (children : List (EntryName × Entry))
    (name : EntryName) :
    (mapContentsEach f names children).lookup name =
      (children.lookup name).map (mapContents f (names ++ [name])) := by
  induction children with
  | nil => simp [mapContentsEach]
  | cons child children ih =>
    obtain ⟨other, entry⟩ := child
    rw [mapContentsEach, List.lookup_cons, List.lookup_cons]
    cases h : name == other with
    | true => rw [eq_of_beq h]; rfl
    | false => exact ih

theorem find?_mapContentsEach (names : List EntryName) (children : List (EntryName × Entry))
    (text : String) :
    ((mapContentsEach f names children).find? (·.1.text = text)).map Prod.fst =
      (children.find? (·.1.text = text)).map Prod.fst := by
  induction children with
  | nil => simp [mapContentsEach]
  | cons child children ih =>
    obtain ⟨name, entry⟩ := child
    rw [mapContentsEach, List.find?_cons, List.find?_cons]
    cases decide (name.text = text) with
    | true => rfl
    | false => exact ih

theorem at?_mapContents (entry : Entry) (names more : List EntryName) :
    (entry.mapContents f names).at? more =
      (entry.at? more).map (mapContents f (names ++ more)) := by
  induction more generalizing entry names with
  | nil => simp [at?_nil]
  | cons name more ih =>
    cases entry with
    | file contents => simp [mapContents, at?]
    | folder children =>
      simp only [mapContents, at?, lookup_mapContentsEach]
      cases children.lookup name with
      | none => rfl
      | some child =>
        simp only [Option.map_some]
        rw [ih]
        simp

mutual

theorem walk_mapContents (names : List EntryName) : (entry : Entry) →
    (entry.mapContents f names).walk = entry.walk
  | file contents => by simp [mapContents, walk]
  | folder children => by rw [mapContents, walk, walk, walkEach_mapContentsEach names children]

theorem walkEach_mapContentsEach (names : List EntryName) :
    (children : List (EntryName × Entry)) →
    walkEach (mapContentsEach f names children) = walkEach children
  | [] => by simp [mapContentsEach, walkEach]
  | (name, entry) :: rest => by
    rw [mapContentsEach, walkEach, walkEach, walk_mapContents (names ++ [name]) entry,
      walkEach_mapContentsEach names rest]

end

end Entry

namespace FileTree

/-- The tree with other contents, each depending on the names that lead to it. -/
def mapContents (f : List EntryName → Contents → Contents) (tree : FileTree) : FileTree :=
  { tree with children := Entry.mapContentsEach f [] tree.children }

section

variable (f : List EntryName → Contents → Contents) (tree : FileTree)

theorem top_mapContents : (tree.mapContents f).top = tree.top.mapContents f [] := by
  rw [top, top, Entry.mapContents]
  rfl

theorem at?_mapContents (names : List EntryName) :
    (tree.mapContents f).at? names = (tree.at? names).map (Entry.mapContents f names) := by
  rw [at?, top_mapContents, Entry.at?_mapContents, List.nil_append]
  rfl

theorem fileCount_mapContents : (tree.mapContents f).fileCount = tree.fileCount := by
  rw [fileCount, top_mapContents, Entry.walk_mapContents]
  rfl

theorem follow_mapContents (names : List EntryName) (segments : List String) :
    (tree.mapContents f).follow names segments = tree.follow names segments := by
  induction segments generalizing names with
  | nil => rfl
  | cons segment rest ih =>
    rw [follow, follow, at?_mapContents]
    cases tree.at? names with
    | none => rfl
    | some entry =>
      cases entry with
      | file contents => simp [Entry.mapContents]
      | folder children =>
        have hfind := Entry.find?_mapContentsEach f names children segment
        simp only [Option.map_some, Entry.mapContents, ih]
        split
        · rfl
        · split
          · rfl
          · cases hold : children.find? (·.1.text = segment) with
            | none =>
              rw [hold, Option.map_none, Option.map_eq_none_iff] at hfind
              rw [hfind]
            | some child =>
              rw [hold, Option.map_some, Option.map_eq_some_iff] at hfind
              obtain ⟨child', hchild', hname⟩ := hfind
              rw [hchild']
              simp only [hname]

theorem locate_mapContents (p : Path) : (tree.mapContents f).locate p = tree.locate p := by
  unfold locate
  rw [follow_mapContents]
  rfl

theorem canonical_mapContents (p : Path) :
    (tree.mapContents f).canonical p = tree.canonical p := by
  rw [canonical, locate_mapContents]
  rfl

theorem isFile_mapContents (p : Path) : (tree.mapContents f).isFile p = tree.isFile p := by
  unfold isFile entry?
  rw [locate_mapContents]
  cases tree.locate p with
  | error e => rfl
  | ok names =>
    simp only [at?_mapContents]
    cases tree.at? names with
    | none => rfl
    | some entry => cases entry <;> simp [Entry.mapContents]

variable {f tree}

/-- A file whose contents stay has the same text. -/
theorem readText_mapContents {p : Path} (h : ∀ names contents, tree.locate p = .ok names →
    f names contents = contents) : (tree.mapContents f).readText p = tree.readText p := by
  unfold readText
  rw [locate_mapContents]
  cases hlocate : tree.locate p with
  | error e => rfl
  | ok names =>
    simp only [at?_mapContents]
    cases tree.at? names with
    | none => rfl
    | some entry =>
      cases entry with
      | file contents => simp only [Option.map_some, Entry.mapContents, h names contents hlocate]
      | folder children => simp only [Option.map_some, Entry.mapContents]

end

/-- The tree in which the file that a path leads to has other contents.  Nothing else is
changed, and no file is added, removed or renamed. -/
def rewrite (tree : FileTree) (g : Path) (contents : Contents) : FileTree :=
  tree.mapContents fun names old => if .ofNames names = tree.canonical g then contents else old

/-- All other files have the same texts. -/
theorem readText_rewrite_of_ne {tree : FileTree} {g p : Path} (contents : Contents)
    (h : tree.canonical p ≠ tree.canonical g) :
    (tree.rewrite g contents).readText p = tree.readText p := by
  apply readText_mapContents
  intro names old hlocate
  have hp : tree.canonical p = .ofNames names := by rw [canonical, hlocate]
  exact if_neg (hp ▸ h)

end FileTree

theorem resolvePackage?_mapContents (f : List EntryName → Contents → Contents) (tree : FileTree)
    (folder : Path) (package : PackagePath) (searchFolders : List Path) (extension : String) :
    resolvePackage? (tree.mapContents f) folder package searchFolders extension =
      resolvePackage? tree folder package searchFolders extension := by
  have hisFile : (tree.mapContents f).isFile = tree.isFile := funext (tree.isFile_mapContents f)
  rw [resolvePackage?, hisFile]
  rfl

/-- A workspace finds the same module files. -/
theorem Workspace.scan_mapContents (f : List EntryName → Contents → Contents) (tree : FileTree)
    (extension : String) (root : Path) :
    Workspace.scan (tree.mapContents f) extension root = Workspace.scan tree extension root := by
  unfold Workspace.scan
  rw [FileTree.locate_mapContents]
  cases tree.locate root with
  | error e => rfl
  | ok names =>
    simp only [FileTree.at?_mapContents]
    cases tree.at? names with
    | none => rfl
    | some entry =>
      cases entry with
      | file contents => simp [Entry.mapContents]
      | folder children =>
        have hwalk := Entry.walk_mapContents f names (.folder children)
        rw [Entry.mapContents] at hwalk
        simp only [Option.map_some, Entry.mapContents, moduleFilesBelow, hwalk]

end SymbolAtlas
