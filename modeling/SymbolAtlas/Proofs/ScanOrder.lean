import Mathlib.Data.List.Induction
import SymbolAtlas.FileTree.Update
import SymbolAtlas.Proofs.Linking

/-!
# What a scan finds, and in which order

A walk visits the entries of a folder in the order of their names, and what lies in a folder
right where the folder stands.  This is the order of paths, in which `a/x` comes before `a-b`
although the text of the one does not come before that of the other.  A scan therefore enters
the files that it finds in path order, and sorting them afterwards moves none.

## Main Definitions

* `namesBefore`: the dictionary order of the names that lead to files.
* `Workspace.Discovers`: a workspace knows exactly the module files beneath a root, numbered in
  path order.

## Main Statements

* `Entry.pairwise_walk`: a walk visits the files in the order of their names.
* `Workspace.paths_of_scan`: the files of a fresh workspace are those that the walk has found.
* `scan_discovers`: what a scan finds, and in which order.
-/

namespace SymbolAtlas

namespace FileRoster

/-- Different files are entered in the order in which they are given. -/
theorem paths_insertAll {r : FileRoster} {paths : List Path}
    (h : (r.paths ++ paths).Pairwise (Path.same · · = false)) :
    (r.insertAll paths).paths = r.paths ++ paths := by
  induction paths generalizing r with
  | nil => simp [insertAll]
  | cons p paths ih =>
    have hnew : r.paths.any (·.same p) = false := by
      rw [List.any_eq_false]
      intro q hq
      rw [(List.pairwise_append.1 h).2.2 q hq p List.mem_cons_self]
      exact Bool.false_ne_true
    have hpaths : (r.insert p).2.paths = r.paths ++ [p] := by
      rw [paths_insert, hnew, if_neg Bool.false_ne_true]
    have hrest := ih (r := (r.insert p).2) (by rw [hpaths]; simpa using h)
    rw [hpaths] at hrest
    show ((r.insert p).2.insertAll paths).paths = _
    rw [hrest]
    simp

/-- In a roster that is in path order, numbers are in path order. -/
theorem before_iff_of_idOf? {r : FileRoster} (h : r.paths.Pairwise (Path.before · · = true))
    {p q : Path} {i j : FileId} (hi : r.idOf? p = some i) (hj : r.idOf? q = some j) :
    p.before q = true ↔ i.index < j.index := by
  obtain ⟨hilt, hp⟩ := exists_of_idOf? hi
  obtain ⟨hjlt, hq⟩ := exists_of_idOf? hj
  have hbefore : p.before q = r.paths[i.index].before r.paths[j.index] := by
    rw [Path.before, Path.before, ← Path.same_iff.1 hp, ← Path.same_iff.1 hq]
  rw [hbefore]
  have hlt := List.pairwise_iff_getElem.1 h
  constructor
  · intro hij
    by_contra hle
    rcases Nat.lt_or_eq_of_le (Nat.le_of_not_lt hle) with hji | hji
    · rw [Path.before_asymm (hlt _ _ hjlt hilt hji)] at hij
      cases hij
    · simp only [hji, Path.before_irrefl] at hij
      cases hij
  · exact hlt _ _ hilt hjlt

end FileRoster

/-! ## Absolute paths -/

/-- The dictionary order of the names that lead to files. -/
def namesBefore : List EntryName → List EntryName → Bool :=
  dictionaryBefore fun a b => nameBefore a.text b.text

theorem namesBefore_cons {a b : EntryName} {as bs : List EntryName} :
    namesBefore (a :: as) (b :: bs) = true ↔
      nameBefore a.text b.text = true ∨ a = b ∧ namesBefore as bs = true :=
  linearlyOrders_entryName.dictionaryBefore_cons

namespace Path

/-- Absolute paths through names are ordered as the names are. -/
theorem before_ofNames (a b : List EntryName) :
    (ofNames a).before (ofNames b) = namesBefore a b := by
  have hnames : ∀ a b : List EntryName,
      dictionaryBefore Component.before (a.map (.name ·.text)) (b.map (.name ·.text)) =
        namesBefore a b := by
    intro a
    induction a with
    | nil => intro b; cases b <;> rfl
    | cons x a ih =>
      intro b
      cases b with
      | nil => rfl
      | cons y b => simp only [List.map_cons, dictionaryBefore, Component.before, ih, namesBefore]
  rw [before, components_ofNames, components_ofNames, dictionaryBefore,
    linearlyOrders_component.irrefl, hnames]
  rfl

theorem same_eq_false_of_before {p q : Path} (h : p.before q = true) : p.same q = false := by
  rw [← Bool.not_eq_true, same_iff_neither_before, h]
  simp

/-- The extension of an absolute path is that of its last name. -/
theorem extension?_ofNames (names : List EntryName) :
    (ofNames names).extension? = names.getLast?.bind (nameExtension? ·.text) := by
  rw [extension?, fileName?, components_ofNames]
  cases names using List.reverseRecOn with
  | nil => rfl
  | append_singleton names name =>
    rw [List.map_append, ← List.cons_append, List.map_singleton, List.getLast?_concat,
      List.getLast?_concat]
    rfl

theorem isBeneath_trans {p q r : Path} (h : p.isBeneath q = true) (h' : q.isBeneath r = true) :
    p.isBeneath r = true := by
  rw [isBeneath, List.isPrefixOf_iff_prefix] at h h' ⊢
  exact h'.trans h

theorem isBeneath_ofNames {a b : List EntryName} :
    (ofNames a).isBeneath (ofNames b) = true ↔ ∃ below, a = b ++ below := by
  rw [isBeneath, components_ofNames, components_ofNames, List.isPrefixOf_iff_prefix,
    List.cons_prefix_cons, and_iff_right rfl,
    List.prefix_map_iff_of_injective fun x y h => EntryName.eq_of_text (Component.name.inj h)]
  exact exists_congr fun below => eq_comm

end Path

theorem hasExtension_iff {extension : String} {names : List EntryName} :
    hasExtension extension names = true ↔ (Path.ofNames names).extension? = some extension := by
  rw [hasExtension, beq_iff_eq, Path.extension?_ofNames]

namespace FileTree

variable {tree : FileTree}

/-- A path leads to a file by its canonical spelling exactly when it goes through the names of a
file. -/
theorem canonical_and_isFile_iff {p : Path} :
    tree.canonical p = p ∧ tree.isFile p = true ↔
      ∃ names contents, p = .ofNames names ∧ tree.at? names = some (.file contents) := by
  constructor
  · rintro ⟨hcanonical, hfile⟩
    obtain ⟨names, contents, hp, hat⟩ := exists_names_of_isFile hfile
    exact ⟨names, contents, hcanonical.symm.trans hp, hat⟩
  · rintro ⟨names, contents, rfl, hat⟩
    have hlocate : tree.locate (.ofNames names) = .ok names := locate_ofNames (by rw [hat]; rfl)
    simp only [canonical, isFile, entry?, hlocate, hat, and_self]

theorem exists_names_of_isFolder {p : Path} (h : tree.isFolder p = true) :
    ∃ names children, tree.locate p = .ok names ∧ tree.at? names = some (.folder children) := by
  unfold isFolder entry? at h
  cases hlocate : tree.locate p with
  | error e => simp [hlocate] at h
  | ok names =>
    simp only [hlocate] at h
    split at h
    · next children hat => exact ⟨names, children, rfl, hat⟩
    · cases h

theorem isFile_eq_false_of_isFolder {p : Path} (h : tree.isFolder p = true) :
    tree.isFile p = false := by
  obtain ⟨names, children, hlocate, hat⟩ := exists_names_of_isFolder h
  simp only [isFile, entry?, hlocate, hat]

end FileTree

/-! ## The order of a walk -/

namespace Entry

theorem pairwise_flatMap_byName {l : List (EntryName × List (List EntryName))}
    (h : ∀ child ∈ l, child.2.Pairwise (namesBefore · · = true)) :
    ((byName l).flatMap fun child => child.2.map (child.1 :: ·)).Pairwise
      (namesBefore · · = true) := by
  rw [List.pairwise_flatMap]
  constructor
  · -- below one child the rest of the names decides
    intro child hchild
    rw [List.pairwise_map]
    refine (h child (mem_of_mem_sorted hchild)).imp fun hbefore => ?_
    exact namesBefore_cons.2 (.inr ⟨rfl, hbefore⟩)
  · -- below different children their own names decide
    have htrans : ∀ a b c : EntryName × List (List EntryName),
        nameBefore a.1.text b.1.text = true → nameBefore b.1.text c.1.text = true →
        nameBefore a.1.text c.1.text = true :=
      fun _ _ _ => linearlyOrders_nameBefore.trans
    have hsorted : (byName l).Pairwise fun a b => nameBefore a.1.text b.1.text = true :=
      pairwise_sorted htrans l
    refine hsorted.imp fun {a b} hbefore x hx y hy => ?_
    obtain ⟨x, -, rfl⟩ := List.mem_map.1 hx
    obtain ⟨y, -, rfl⟩ := List.mem_map.1 hy
    exact namesBefore_cons.2 (.inl hbefore)

mutual

/-- A walk visits the files in the dictionary order of the names that lead to them. -/
theorem pairwise_walk : (entry : Entry) → entry.walk.Pairwise (namesBefore · · = true)
  | file contents => by rw [walk]; exact List.pairwise_singleton _ _
  | folder children => by rw [walk]; exact pairwise_flatMap_byName (pairwise_walkEach children)

theorem pairwise_walkEach : (children : List (EntryName × Entry)) →
    ∀ child ∈ walkEach children, child.2.Pairwise (namesBefore · · = true)
  | [] => by rw [walkEach]; exact fun child h => absurd h List.not_mem_nil
  | (name, entry) :: rest => by
    rw [walkEach, List.forall_mem_cons]
    exact ⟨pairwise_walk entry, pairwise_walkEach rest⟩

end

end Entry

/-- The module files beneath a folder are found in path order. -/
theorem pairwise_moduleFilesBelow (extension : String) (names : List EntryName) (entry : Entry) :
    (moduleFilesBelow extension names entry).Pairwise (Path.before · · = true) := by
  have hfront : ∀ names a b : List EntryName, namesBefore a b = true →
      (Path.ofNames (names ++ a)).before (.ofNames (names ++ b)) = true := by
    intro names a b h
    rw [Path.before_ofNames]
    induction names with
    | nil => exact h
    | cons name names ih => exact namesBefore_cons.2 (.inr ⟨rfl, ih⟩)
  rw [moduleFilesBelow, List.pairwise_map]
  refine List.Pairwise.filter _ ?_
  rw [List.pairwise_map]
  exact entry.pairwise_walk.imp fun {a b} => hfront names a b

/-! ## Scans -/

namespace Workspace

variable {tree : FileTree} {extension : String} {root : Path} {w : Workspace}

/-- A workspace knows exactly the module files beneath a root, numbered in path order. -/
structure Discovers (tree : FileTree) (extension : String) (root : Path) (w : Workspace) :
    Prop where
  /-- The root is known by its canonical path. -/
  root : w.root = tree.canonical root
  /-- The known paths are the canonical paths of the files beneath the root, at any depth, that
  have the extension. -/
  files : ∀ p, p ∈ w.roster.paths ↔ tree.canonical p = p ∧ tree.isFile p = true ∧
    p.isBeneath w.root = true ∧ p.extension? = some extension
  /-- No file is known twice, under however many spellings. -/
  once : w.roster.paths.Pairwise (Path.same · · = false)
  /-- A folder is not listed, even if it has the extension, and what lies in it is. -/
  folders : ∀ folder, tree.isFolder folder = true → folder.extension? = some extension →
    (tree.canonical folder).isBeneath w.root = true →
    folder ∉ w.roster.paths ∧ ∀ p, tree.canonical p = p → tree.isFile p = true →
      p.isBeneath (tree.canonical folder) = true → p.extension? = some extension →
      p ∈ w.roster.paths
  /-- The numbers are in the order of the paths. -/
  ordered : ∀ p q i j, w.roster.idOf? p = some i → w.roster.idOf? q = some j →
    (p.before q = true ↔ i.index < j.index)
  /-- The files in path order are those with the numbers zero, one, two and so on. -/
  listed : w.modulePaths.map some =
    (List.range w.roster.size).map fun number => w.roster.path? ⟨number⟩

/-- The files of a fresh workspace are those that the walk has found, in its order. -/
theorem paths_of_scan (h : scan tree extension root = .ok w) :
    ∃ names children, tree.locate root = .ok names ∧ tree.at? names = some (.folder children) ∧
      w.roster.paths = moduleFilesBelow extension names (.folder children) := by
  obtain ⟨names, children, hlocate, hat, rfl⟩ := scan_eq_ok h
  refine ⟨names, children, hlocate, hat, ?_⟩
  refine FileRoster.paths_insertAll (r := .empty) ?_
  exact (pairwise_moduleFilesBelow extension names (.folder children)).imp
    Path.same_eq_false_of_before

theorem pairwise_paths_of_scan (h : scan tree extension root = .ok w) :
    w.roster.paths.Pairwise (Path.before · · = true) := by
  obtain ⟨names, children, -, -, hpaths⟩ := paths_of_scan h
  rw [hpaths]
  exact pairwise_moduleFilesBelow extension names _

/-- Sorting the files of a fresh workspace moves none. -/
theorem modulePaths_of_scan (h : scan tree extension root = .ok w) :
    w.modulePaths = w.roster.paths :=
  sorted_of_pairwise (fun _ _ => Path.before_asymm) (pairwise_paths_of_scan h)

theorem mem_paths_of_scan (h : scan tree extension root = .ok w) {p : Path} :
    p ∈ w.roster.paths ↔ tree.canonical p = p ∧ tree.isFile p = true ∧
      p.isBeneath w.root = true ∧ p.extension? = some extension := by
  obtain ⟨names, children, hlocate, hat, hpaths⟩ := paths_of_scan h
  have hroot : w.root = .ofNames names := by
    rw [root_of_scan h, FileTree.canonical, hlocate]
  rw [hpaths, hroot, mem_moduleFilesBelow hat, ← and_assoc, FileTree.canonical_and_isFile_iff]
  constructor
  · rintro ⟨below, contents, rfl, hextension, hfile⟩
    exact ⟨⟨_, contents, rfl, hfile⟩, Path.isBeneath_ofNames.2 ⟨below, rfl⟩,
      hasExtension_iff.1 hextension⟩
  · rintro ⟨⟨found, contents, rfl, hfile⟩, hbeneath, hextension⟩
    obtain ⟨below, rfl⟩ := Path.isBeneath_ofNames.1 hbeneath
    exact ⟨below, contents, rfl, hasExtension_iff.2 hextension, hfile⟩

theorem exists_scan (extension : String) (h : tree.isFolder root = true) :
    ∃ w, scan tree extension root = .ok w := by
  obtain ⟨names, children, hlocate, hat⟩ := FileTree.exists_names_of_isFolder h
  unfold scan
  simp only [hlocate, hat]
  exact ⟨_, rfl⟩

end Workspace

/-- A scan of a folder finds exactly the files beneath it that have the extension, each once and
by its canonical path, and numbers them in path order. -/
theorem scan_discovers (tree : FileTree) (extension : String) (root : Path)
    (h : tree.isFolder root = true) :
    ∃ w, Workspace.scan tree extension root = .ok w ∧ w.Discovers tree extension root := by
  obtain ⟨w, hscan⟩ := Workspace.exists_scan extension h
  have hfiles : ∀ p, p ∈ w.roster.paths ↔ tree.canonical p = p ∧ tree.isFile p = true ∧
      p.isBeneath w.root = true ∧ p.extension? = some extension :=
    fun p => Workspace.mem_paths_of_scan hscan
  have hordered := Workspace.pairwise_paths_of_scan hscan
  refine ⟨w, hscan, Workspace.root_of_scan hscan, hfiles,
    hordered.imp Path.same_eq_false_of_before, ?_, ?_, ?_⟩
  · intro folder hfolder _ hroot
    refine ⟨fun hmem => ?_, fun p hcanonical hfile hbeneath hextension => ?_⟩
    · rw [hfiles, FileTree.isFile_eq_false_of_isFolder hfolder] at hmem
      cases hmem.2.1
    · exact (hfiles p).2 ⟨hcanonical, hfile, Path.isBeneath_trans hbeneath hroot, hextension⟩
  · exact fun p q i j => FileRoster.before_iff_of_idOf? hordered
  · rw [Workspace.modulePaths_of_scan hscan, FileRoster.map_path?_range]

/-- A tree in which the order of paths is not that of their texts, with a folder that has the
extension of modules. -/
def crossedTree : FileTree :=
  (((((FileTree.bare ⟨"/w"⟩).write ⟨"/w/a.ol"⟩ (.text "")).write ⟨"/w/a-b.ol"⟩ (.text "")).write
    ⟨"/w/a/x.ol"⟩ (.text "")).write ⟨"/w/d.ol/y.ol"⟩ (.text "")).write ⟨"/w/z.txt"⟩ (.text "")

/-- The workspace of that tree, with its files in the order of their numbers. -/
def crossedWorkspace : Workspace :=
  ⟨⟨"/w"⟩, .insertAll .empty [⟨"/w/a/x.ol"⟩, ⟨"/w/a-b.ol"⟩, ⟨"/w/a.ol"⟩, ⟨"/w/d.ol/y.ol"⟩]⟩

/-- What lies in `a` comes first, and `d.ol` is no module. -/
theorem scan_discovers_crossed :
    Workspace.scan crossedTree "ol" ⟨"/w/a/.."⟩ = .ok crossedWorkspace ∧
      crossedWorkspace.Discovers crossedTree "ol" ⟨"/w/a/.."⟩ := by
  have hscan : Workspace.scan crossedTree "ol" ⟨"/w/a/.."⟩ = .ok crossedWorkspace :=
    eq_ok_of_toOption (by decide +kernel)
  obtain ⟨w, hw, hdiscovers⟩ := scan_discovers crossedTree "ol" ⟨"/w/a/.."⟩ (by decide +kernel)
  rw [Except.ok.inj (hscan.symm.trans hw)]
  exact ⟨hw, hdiscovers⟩

end SymbolAtlas
