import SymbolAtlas.Proofs.Files
import SymbolAtlas.Proofs.Verification

/-!
# Texts that a workspace keeps

A workspace keeps the texts that it has read.  As long as the tree does not
change, what it keeps is what the tree has, so reading a module through the
workspace gives the text of its file whatever was read before.

## Main Definitions

* `Workspace.Mirrors`: the kept texts are the texts of the tree.

## Main Statements

* `Workspace.mirrors_of_scan`: a fresh workspace keeps nothing wrong.
* `Workspace.Mirrors.source`: reading gives the text of the file and keeps this.
* `Workspace.Mirrors.passes`: checking locations in an unchanged tree.
-/

namespace SymbolAtlas.Workspace

/-- The files of a workspace have canonical paths, and the texts it keeps are
those of the tree. -/
structure Mirrors (tree : FileTree) (w : Workspace) : Prop where
  paths : ∀ p ∈ w.roster.paths, ∃ names, p = .ofNames names
  texts : ∀ id text, w.roster.text? id = some text → ∃ names,
    w.roster.path? id = some (.ofNames names) ∧ tree.at? names = some (.file (.text text))

variable {tree : FileTree}

/-- A fresh workspace keeps no texts yet. -/
theorem mirrors_of_scan {extension : String} {root : Path} {w : Workspace}
    (h : scan tree extension root = .ok w) : w.Mirrors tree := by
  have htexts := texts_of_scan h
  constructor
  · obtain ⟨names, children, -, hat, rfl⟩ := scan_eq_ok h
    intro p hp
    rcases FileRoster.mem_paths_insertAll hp with hp | hp
    · cases hp
    · obtain ⟨below, -, rfl, -⟩ := (mem_moduleFilesBelow hat).1 hp
      exact ⟨_, rfl⟩
  · intro id text hid
    simp [FileRoster.text?, htexts] at hid

/-- After a file with a canonical path was entered, its number leads to it. -/
theorem path?_insert {r : FileRoster} (hpaths : ∀ p ∈ r.paths, ∃ names, p = .ofNames names)
    (names : List EntryName) :
    (r.insert (.ofNames names)).2.path? (r.insert (.ofNames names)).1 = some (.ofNames names) ∧
      (∀ p ∈ (r.insert (.ofNames names)).2.paths, ∃ names, p = .ofNames names) ∧
      ∀ id p, r.path? id = some p → (r.insert (.ofNames names)).2.path? id = some p := by
  cases hid : r.idOf? (.ofNames names) with
  | some id =>
    rw [FileRoster.insert_of_idOf? hid]
    obtain ⟨hindex, hsame⟩ := FileRoster.exists_of_idOf? hid
    refine ⟨?_, hpaths, fun id p h => h⟩
    obtain ⟨names', hnames⟩ := hpaths _ (List.getElem_mem hindex)
    rw [hnames, Path.same_ofNames] at hsame
    rw [FileRoster.path?_eq, List.getElem?_eq_getElem hindex, hnames, hsame]
  | none =>
    rw [FileRoster.insert_of_new hid]
    simp only [FileRoster.path?_eq, FileRoster.paths_push, ← FileRoster.length_paths]
    refine ⟨List.getElem?_concat_length, ?_, ?_⟩
    · intro p hp
      rcases List.mem_append.1 hp with hp | hp
      · exact hpaths p hp
      · exact ⟨names, List.mem_singleton.1 hp⟩
    · intro id p hp
      rw [List.getElem?_append_left (List.getElem?_eq_some_iff.1 hp).1]
      exact hp

/-- Reading a file through a workspace gives its text in the tree. -/
theorem Mirrors.source {w : Workspace} (h : w.Mirrors tree) {names : List EntryName} {text : String}
    (hat : tree.at? names = some (.file (.text text))) :
    (w.source tree (.ofNames names)).1 = .ok text ∧
      (w.source tree (.ofNames names)).2.Mirrors tree := by
  have hlocate : tree.locate (.ofNames names) = .ok names :=
    FileTree.locate_ofNames (by rw [hat]; rfl)
  have hcanonical : tree.canonical (.ofNames names) = .ofNames names := by
    rw [FileTree.canonical, hlocate]
  have hread : tree.readText (.ofNames names) = .ok text := by
    simp only [FileTree.readText, hlocate, hat]
  obtain ⟨hpath, hpaths, hkept⟩ := path?_insert h.paths names
  have htexts : (w.roster.insert (.ofNames names)).2.texts = w.roster.texts :=
    w.roster.texts_insert _
  have hold : ∀ id old, (w.roster.insert (.ofNames names)).2.text? id = some old → ∃ names',
      (w.roster.insert (.ofNames names)).2.path? id = some (.ofNames names') ∧
        tree.at? names' = some (.file (.text old)) := by
    intro id old hid
    rw [FileRoster.text?, htexts] at hid
    obtain ⟨names', hpath', hat'⟩ := h.texts id old hid
    exact ⟨names', hkept id _ hpath', hat'⟩
  unfold Workspace.source
  simp only [hcanonical]
  cases hkeep : (w.roster.insert (.ofNames names)).2.text? (w.roster.insert (.ofNames names)).1 with
  | some kept =>
    obtain ⟨names', hpath', hat'⟩ := hold _ _ hkeep
    have hnames : names' = names :=
      Path.same_ofNames.1 (Path.same_iff.2 (congrArg Path.components
        (Option.some.inj (hpath'.symm.trans hpath))))
    rw [hnames, hat] at hat'
    cases hat'
    exact ⟨rfl, hpaths, hold⟩
  | none =>
    simp only [hread, true_and]
    refine ⟨hpaths, fun id new hid => ?_⟩
    simp only [FileRoster.text?, FileRoster.setText, List.lookup_cons] at hid
    split at hid
    · next heq =>
      obtain rfl := Option.some.inj hid
      rw [eq_of_beq heq]
      exact ⟨names, hpath, hat⟩
    · exact hold id new hid

/-- In an unchanged tree locations that hold the name pass the check. -/
theorem Mirrors.passes {w : Workspace} (h : w.Mirrors tree) {name : String}
    {entries : List (Path × List Span)}
    (hentries : ∀ entry ∈ entries, ∃ names text, entry.1 = .ofNames names ∧
      tree.at? names = some (.file (.text text)) ∧ ∀ span ∈ entry.2, holds text span name = true) :
    ∀ i ∈ w.inspect tree entries, i.Passes name := by
  induction entries generalizing w with
  | nil => exact nofun
  | cons entry entries ih =>
    obtain ⟨hfirst, hothers⟩ := List.forall_mem_cons.1 hentries
    obtain ⟨names, text, hpath, hat, hholds⟩ := hfirst
    obtain ⟨module, spans⟩ := entry
    obtain rfl : module = .ofNames names := hpath
    obtain ⟨hreading, hnext⟩ := h.source hat
    exact List.forall_mem_cons.2 ⟨⟨text, hreading, hholds⟩, ih hnext hothers⟩

end SymbolAtlas.Workspace
