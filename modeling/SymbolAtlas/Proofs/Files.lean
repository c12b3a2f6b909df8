import SymbolAtlas.FileTree.Canonical
import SymbolAtlas.Proofs.Ordering
import SymbolAtlas.Workspace

/-!
# The files of a tree and of a workspace

A listing shows each child of a folder once, so walking a tree visits exactly
the places that hold a file.  The known files of a fresh workspace are those
beneath its root that have the extension of modules.  They are given by their
canonical paths, in path order, and no text is kept for them yet.

## Main Statements

* `mem_byName`: a listing shows the children that look-up finds.
* `Entry.mem_walk`: a walk visits the files.
* `mem_modulePaths_of_scan`: the known files of a fresh workspace.
-/

namespace SymbolAtlas

/-! ## Listings -/

section Sorted

variable {α : Type} {before : α → α → Bool}

/-- Into a list in order an element is inserted unless one is there that is
neither before nor behind it. -/
theorem mem_insertSorted_iff
    (htrans : ∀ a b c, before a b = true → before b c = true → before a c = true) {x y : α}
    {l : List α} (h : l.Pairwise (before · · = true)) :
    y ∈ insertSorted before x l ↔
      y ∈ l ∨ y = x ∧ ∀ z ∈ l, before x z = true ∨ before z x = true := by
  induction l with
  | nil => simp [insertSorted]
  | cons z l ih =>
    obtain ⟨hz, hl⟩ := List.pairwise_cons.1 h
    simp only [insertSorted]
    split
    · next hxz =>
      have hall : ∀ w ∈ z :: l, before x w = true ∨ before w x = true := by
        intro w hw
        rcases List.mem_cons.1 hw with rfl | hw
        · exact .inl hxz
        · exact .inl (htrans x z w hxz (hz w hw))
      rw [List.mem_cons, or_comm]
      exact or_congr_right (and_iff_left hall).symm
    · next hxz =>
      split
      · next hzx =>
        rw [List.mem_cons, ih hl, List.mem_cons, List.forall_mem_cons]
        grind
      · next hzx =>
        rw [List.forall_mem_cons, or_iff_left]
        rintro ⟨-, hz, -⟩
        exact hz.elim hxz hzx

theorem exists_mem_insertSorted (hirrefl : ∀ a, before a a = false) (x : α) (l : List α) :
    ∃ y ∈ insertSorted before x l, before x y = false ∧ before y x = false := by
  induction l with
  | nil => exact ⟨x, by simp [insertSorted], hirrefl x, hirrefl x⟩
  | cons z l ih =>
    simp only [insertSorted]
    split
    · exact ⟨x, List.mem_cons_self, hirrefl x, hirrefl x⟩
    · next hxz =>
      split
      · obtain ⟨y, hy, hneither⟩ := ih
        exact ⟨y, List.mem_cons_of_mem z hy, hneither⟩
      · next hzx => exact ⟨z, List.mem_cons_self, by simpa using hxz, by simpa using hzx⟩

theorem mem_foldl_insertSorted {l acc : List α} {y : α}
    (h : y ∈ l.foldl (fun acc x => insertSorted before x acc) acc) : y ∈ acc ∨ y ∈ l := by
  induction l generalizing acc with
  | nil => exact .inl h
  | cons x l ih =>
    rcases ih h with h | h
    · rcases mem_of_mem_insertSorted h with rfl | h
      · exact .inr List.mem_cons_self
      · exact .inl h
    · exact .inr (List.mem_cons_of_mem x h)

theorem mem_of_mem_sorted {l : List α} {y : α} (h : y ∈ sorted before l) : y ∈ l :=
  (mem_foldl_insertSorted h).resolve_left nofun

/-- What is sorted stays, up to elements that the order does not tell apart. -/
theorem exists_mem_sorted (hirrefl : ∀ a, before a a = false) {l : List α} {x : α} (h : x ∈ l) :
    ∃ y ∈ sorted before l, before x y = false ∧ before y x = false := by
  have hkept : ∀ {l acc : List α} {y : α}, y ∈ acc →
      y ∈ l.foldl (fun acc x => insertSorted before x acc) acc := by
    intro l
    induction l with
    | nil => exact fun h => h
    | cons x l ih => exact fun h => ih (mem_insertSorted_of_mem h)
  obtain ⟨front, back, rfl⟩ := List.append_of_mem h
  rw [sorted, List.foldl_append, List.foldl_cons]
  obtain ⟨y, hy, hneither⟩ := exists_mem_insertSorted hirrefl x
    (front.foldl (fun acc x => insertSorted before x acc) [])
  exact ⟨y, hkept hy, hneither⟩

theorem pairwise_foldl_insertSorted
    (htrans : ∀ a b c, before a b = true → before b c = true → before a c = true)
    {l acc : List α} (h : acc.Pairwise (before · · = true)) :
    (l.foldl (fun acc x => insertSorted before x acc) acc).Pairwise (before · · = true) := by
  induction l generalizing acc with
  | nil => exact h
  | cons x l ih => exact ih (pairwise_insertSorted h htrans)

theorem pairwise_sorted
    (htrans : ∀ a b c, before a b = true → before b c = true → before a c = true) (l : List α) :
    (sorted before l).Pairwise (before · · = true) :=
  pairwise_foldl_insertSorted htrans .nil

end Sorted

theorem EntryName.eq_of_text {a b : EntryName} (h : a.text = b.text) : a = b := by
  cases a
  cases b
  cases h
  rfl

/-- The order of the names of entries. -/
theorem linearlyOrders_entryName :
    LinearlyOrders fun a b : EntryName => nameBefore a.text b.text :=
  linearlyOrders_nameBefore.onKey EntryName.text EntryName.eq_of_text

theorem comparable_iff_ne {a b : EntryName} :
    nameBefore a.text b.text = true ∨ nameBefore b.text a.text = true ↔ a ≠ b := by
  constructor
  · rintro h rfl
    rw [linearlyOrders_nameBefore.irrefl] at h
    simp at h
  · intro hne
    cases hab : nameBefore a.text b.text with
    | true => exact .inl rfl
    | false =>
      cases hba : nameBefore b.text a.text with
      | true => exact .inr rfl
      | false => exact absurd (linearlyOrders_entryName.eq_of_neither hab hba) hne

theorem mem_foldl_byName {α : Type} {l acc : List (EntryName × α)} {name : EntryName} {a : α}
    (h : acc.Pairwise fun x y => nameBefore x.1.text y.1.text = true) :
    (name, a) ∈ l.foldl
        (fun acc x => insertSorted (fun x y => nameBefore x.1.text y.1.text) x acc) acc ↔
      (name, a) ∈ acc ∨ (∀ x ∈ acc, x.1 ≠ name) ∧ l.lookup name = some a := by
  have htrans : ∀ x y z : EntryName × α, nameBefore x.1.text y.1.text = true →
      nameBefore y.1.text z.1.text = true → nameBefore x.1.text z.1.text = true :=
    fun _ _ _ => linearlyOrders_nameBefore.trans
  induction l generalizing acc with
  | nil => simp
  | cons x l ih =>
    obtain ⟨other, b⟩ := x
    have hrest := ih (pairwise_insertSorted (x := (other, b)) h htrans)
    refine hrest.trans ?_
    clear hrest ih
    simp only [mem_insertSorted_iff htrans h, comparable_iff_ne, List.lookup_cons]
    by_cases hname : name = other
    · -- the name is listed now, by an old entry or by the new one
      subst hname
      rw [beq_self_eq_true]
      by_cases hfree : ∀ x ∈ acc, x.1 ≠ name
      · have hnew : ∀ x ∈ acc, name ≠ x.1 := fun x hx => (hfree x hx).symm
        rw [and_iff_left hnew, and_iff_right hfree, or_iff_left, Prod.mk.injEq]
        · simp [eq_comm]
        · rintro ⟨hall, -⟩
          exact hall (name, b) (.inr ⟨rfl, hnew⟩) rfl
      · have hnew : ¬ ∀ x ∈ acc, name ≠ x.1 := fun hall => hfree fun x hx => (hall x hx).symm
        simp only [hfree, hnew, and_false, false_and, or_false]
    · rw [beq_false_of_ne hname]
      grind

/-- A listing shows the children that look-up finds. -/
theorem mem_byName {α : Type} {l : List (EntryName × α)} {name : EntryName} {a : α} :
    (name, a) ∈ byName l ↔ l.lookup name = some a := by
  rw [byName, sorted, mem_foldl_byName .nil]
  simp

/-! ## Walking a tree -/

namespace Entry

theorem lookup_walkEach (children : List (EntryName × Entry)) (name : EntryName) :
    (walkEach children).lookup name = (children.lookup name).map walk := by
  induction children with
  | nil => rfl
  | cons child children ih =>
    obtain ⟨other, entry⟩ := child
    rw [walkEach, List.lookup_cons, List.lookup_cons]
    cases name == other with
    | true => rfl
    | false => exact ih

/-- A walk visits exactly the files. -/
theorem mem_walk {entry : Entry} {names : List EntryName} :
    names ∈ entry.walk ↔ ∃ contents, entry.at? names = some (.file contents) := by
  induction names generalizing entry with
  | nil =>
    cases entry with
    | file contents => simp [walk, at?]
    | folder children => simp [walk, at?]
  | cons name names ih =>
    cases entry with
    | file contents => simp [walk, at?]
    | folder children =>
      have hchild : name :: names ∈ (folder children).walk ↔
          ∃ below, (name, below) ∈ byName (walkEach children) ∧ names ∈ below := by
        simp only [walk, List.mem_flatMap, List.mem_map, List.cons.injEq]
        constructor
        · rintro ⟨⟨other, below⟩, hmem, found, hfound, rfl, rfl⟩
          exact ⟨below, hmem, hfound⟩
        · rintro ⟨below, hmem, hfound⟩
          exact ⟨(name, below), hmem, names, hfound, rfl, rfl⟩
      rw [hchild]
      simp only [mem_byName, lookup_walkEach, at?]
      cases hlookup : children.lookup name with
      | none => simp
      | some child => simp [ih]

end Entry

/-! ## Workspaces -/

namespace FileRoster

theorem ids_eq (r : FileRoster) : r.ids = (List.range r.size).map FileId.mk := r.numbered

theorem length_paths (r : FileRoster) : r.paths.length = r.size := List.length_map _

theorem path?_eq (r : FileRoster) (id : FileId) : r.path? id = r.paths[id.index]? :=
  List.getElem?_map.symm

/-- The number that is kept for a path is the place of its first spelling. -/
theorem idOf?_eq (r : FileRoster) (p : Path) :
    r.idOf? p = (r.paths.findIdx? (·.same p)).map FileId.mk := by
  have hnumber : ∀ index, index < r.entries.length →
      r.entries[index]?.map (·.2) = some (FileId.mk index) := by
    intro index hindex
    rw [← List.getElem?_map, r.numbered, List.getElem?_map, List.getElem?_range hindex]
    rfl
  rw [idOf?, List.find?_eq_bind_findIdx?_getElem?, paths, List.findIdx?_map]
  show _ = (r.entries.findIdx? fun entry => entry.1.same p).map FileId.mk
  cases hfind : r.entries.findIdx? fun entry => entry.1.same p with
  | none => rfl
  | some index => exact hnumber index (List.findIdx?_eq_some_iff_getElem.1 hfind).1

/-- A number leads to a spelling of the path that has it. -/
theorem exists_of_idOf? {r : FileRoster} {p : Path} {i : FileId} (h : r.idOf? p = some i) :
    ∃ hi : i.index < r.paths.length, r.paths[i.index].same p = true := by
  rw [idOf?_eq] at h
  obtain ⟨index, hfind, rfl⟩ := Option.map_eq_some_iff.1 h
  obtain ⟨hindex, hsame, -⟩ := List.findIdx?_eq_some_iff_getElem.1 hfind
  exact ⟨hindex, hsame⟩

theorem map_path?_range (r : FileRoster) :
    (List.range r.size).map (fun number => r.path? ⟨number⟩) = r.paths.map some := by
  refine List.ext_getElem (by simp [length_paths]) fun i hi hi' => ?_
  rw [List.length_map] at hi'
  simp [path?_eq, hi']

theorem insert_of_idOf? {r : FileRoster} {p : Path} {id : FileId} (h : r.idOf? p = some id) :
    r.insert p = (id, r) := by
  simp only [insert, h]

theorem insert_of_new {r : FileRoster} {p : Path} (h : r.idOf? p = none) :
    r.insert p = (⟨r.size⟩, r.push p) := by
  simp only [insert, h]

theorem paths_push (r : FileRoster) (p : Path) : (r.push p).paths = r.paths ++ [p] :=
  List.map_append

theorem paths_insert (r : FileRoster) (p : Path) :
    (r.insert p).2.paths = if r.paths.any (·.same p) then r.paths else r.paths ++ [p] := by
  have hany : r.paths.any (·.same p) = (r.idOf? p).isSome := by
    rw [idOf?_eq, Option.isSome_map, List.findIdx?_isSome]
  rw [hany]
  cases hid : r.idOf? p with
  | none =>
    rw [insert_of_new hid]
    exact r.paths_push p
  | some id =>
    rw [insert_of_idOf? hid]
    rfl

theorem texts_insert (r : FileRoster) (p : Path) : (r.insert p).2.texts = r.texts := by
  unfold insert
  split <;> rfl

theorem texts_insertAll (r : FileRoster) (paths : List Path) :
    (r.insertAll paths).texts = r.texts := by
  induction paths generalizing r with
  | nil => rfl
  | cons p paths ih => exact (ih _).trans (r.texts_insert p)

theorem mem_paths_insertAll {r : FileRoster} {paths : List Path} {p : Path}
    (h : p ∈ (r.insertAll paths).paths) : p ∈ r.paths ∨ p ∈ paths := by
  induction paths generalizing r with
  | nil => exact .inl h
  | cons q paths ih =>
    rcases ih h with h | h
    · rw [paths_insert] at h
      split at h
      · exact .inl h
      · rcases List.mem_append.1 h with h | h
        · exact .inl h
        · exact .inr (by simpa using .inl (List.mem_singleton.1 h))
    · exact .inr (List.mem_cons_of_mem q h)

theorem mem_paths_insertAll_of_mem {r : FileRoster} {paths : List Path} {p : Path}
    (h : p ∈ r.paths) : p ∈ (r.insertAll paths).paths := by
  induction paths generalizing r with
  | nil => exact h
  | cons q paths ih =>
    refine ih ?_
    rw [paths_insert]
    split
    · exact h
    · exact List.mem_append_left _ h

theorem exists_mem_paths_insertAll {r : FileRoster} {paths : List Path} {p : Path}
    (h : p ∈ paths) : ∃ q ∈ (r.insertAll paths).paths, q.same p = true := by
  induction paths generalizing r with
  | nil => cases h
  | cons q paths ih =>
    rcases List.mem_cons.1 h with rfl | h
    · have hthere : ∃ y ∈ (r.insert p).2.paths, y.same p = true := by
        rw [paths_insert]
        split
        · next hany => simpa using hany
        · exact ⟨p, by simp, p.same_refl⟩
      obtain ⟨y, hy, hsame⟩ := hthere
      exact ⟨y, mem_paths_insertAll_of_mem (r := (r.insert p).2) hy, hsame⟩
    · exact ih h

end FileRoster

namespace Workspace

variable {tree : FileTree} {extension : String} {root : Path} {w : Workspace}

/-- A root and its canonical path have the same workspace. -/
theorem scan_canonical (tree : FileTree) (extension : String) (root : Path) :
    scan tree extension (tree.canonical root) = scan tree extension root := by
  cases hlocate : tree.locate root with
  | error e => rw [FileTree.canonical, hlocate]
  | ok names =>
    have hagain := FileTree.locate_ofNames (FileTree.isSome_at?_of_locate hlocate)
    rw [FileTree.canonical, hlocate]
    simp only [scan, hagain, hlocate]

theorem scan_eq_ok (h : scan tree extension root = .ok w) :
    ∃ names children, tree.locate root = .ok names ∧ tree.at? names = some (.folder children) ∧
      w = ⟨.ofNames names,
        FileRoster.empty.insertAll (moduleFilesBelow extension names (.folder children))⟩ := by
  unfold scan at h
  split at h
  · cases h
  · next names hlocate =>
    split at h
    · next children hat => exact ⟨names, children, hlocate, hat, (Except.ok.inj h).symm⟩
    · cases h

theorem root_of_scan (h : scan tree extension root = .ok w) : w.root = tree.canonical root := by
  obtain ⟨names, children, hlocate, -, rfl⟩ := scan_eq_ok h
  rw [FileTree.canonical, hlocate]

theorem texts_of_scan (h : scan tree extension root = .ok w) : w.roster.texts = [] := by
  obtain ⟨names, children, -, -, rfl⟩ := scan_eq_ok h
  exact FileRoster.texts_insertAll _ _

theorem mem_moduleFilesBelow {names : List EntryName} {children : List (EntryName × Entry)}
    (hat : tree.at? names = some (.folder children)) {p : Path} :
    p ∈ moduleFilesBelow extension names (.folder children) ↔
      ∃ below contents, p = .ofNames (names ++ below) ∧
        hasExtension extension (names ++ below) = true ∧
        tree.at? (names ++ below) = some (.file contents) := by
  have hbelow : ∀ below, tree.at? (names ++ below) = (Entry.folder children).at? below := by
    intro below
    rw [FileTree.at?, Entry.at?_append, ← FileTree.at?, hat, Option.bind_some]
  simp only [moduleFilesBelow, List.mem_map, List.mem_filter, Entry.mem_walk, hbelow]
  constructor
  · rintro ⟨_, ⟨⟨below, ⟨contents, hfile⟩, rfl⟩, hextension⟩, rfl⟩
    exact ⟨below, contents, rfl, hextension, hfile⟩
  · rintro ⟨below, contents, rfl, hextension, hfile⟩
    exact ⟨_, ⟨⟨below, ⟨contents, hfile⟩, rfl⟩, hextension⟩, rfl⟩

/-- The known files of a fresh workspace are the files beneath its root with the
extension, by their canonical paths. -/
theorem mem_modulePaths_of_scan (h : scan tree extension root = .ok w) {p : Path} :
    p ∈ w.modulePaths ↔ ∃ names below contents, tree.locate root = .ok names ∧
      p = .ofNames (names ++ below) ∧ hasExtension extension (names ++ below) = true ∧
      tree.at? (names ++ below) = some (.file contents) := by
  obtain ⟨names, children, hlocate, hat, rfl⟩ := scan_eq_ok h
  have hpaths : ∀ {q}, q ∈ (FileRoster.empty.insertAll
      (moduleFilesBelow extension names (.folder children))).paths →
      ∃ below contents, q = .ofNames (names ++ below) ∧
        hasExtension extension (names ++ below) = true ∧
        tree.at? (names ++ below) = some (.file contents) := by
    intro q hq
    exact (mem_moduleFilesBelow hat).1 ((FileRoster.mem_paths_insertAll hq).resolve_left nofun)
  constructor
  · intro hp
    obtain ⟨below, contents, hfile⟩ := hpaths (mem_of_mem_sorted hp)
    exact ⟨names, below, contents, hlocate, hfile⟩
  · rintro ⟨names', below, contents, hlocate', rfl, hfile⟩
    obtain rfl : names = names' := Except.ok.inj (hlocate.symm.trans hlocate')
    obtain ⟨q, hq, hsame⟩ := FileRoster.exists_mem_paths_insertAll (r := .empty)
      ((mem_moduleFilesBelow hat).2 ⟨below, contents, rfl, hfile⟩)
    obtain ⟨q', hq', hneither⟩ := exists_mem_sorted Path.before_irrefl hq
    have hsame' := Path.same_iff_neither_before.2 hneither
    obtain ⟨below', -, rfl, -⟩ := hpaths (mem_of_mem_sorted hq')
    rw [← Path.same_ofNames.1 (Path.same_trans (Path.same_symm hsame') hsame)]
    exact hq'

theorem pairwise_modulePaths (w : Workspace) :
    w.modulePaths.Pairwise (Path.before · · = true) := by
  have htrans : ∀ p q r : Path, p.before q = true → q.before r = true → p.before r = true :=
    fun _ _ _ hpq hqr => Path.before_trans hpq hqr
  rw [modulePaths]
  exact pairwise_sorted htrans w.roster.paths

/-- A known file of a fresh workspace has a canonical path. -/
theorem canonical_of_mem_modulePaths (h : scan tree extension root = .ok w) {p : Path}
    (hp : p ∈ w.modulePaths) : tree.canonical p = p := by
  obtain ⟨names, below, contents, -, rfl, -, hat⟩ := (mem_modulePaths_of_scan h).1 hp
  rw [FileTree.canonical, FileTree.locate_ofNames (by rw [hat]; rfl)]

/-- A known file of a fresh workspace lies beneath the root. -/
theorem isBeneath_of_mem_modulePaths (h : scan tree extension root = .ok w) {p : Path}
    (hp : p ∈ w.modulePaths) : p.isBeneath w.root = true := by
  obtain ⟨names, below, contents, hlocate, rfl, -⟩ := (mem_modulePaths_of_scan h).1 hp
  rw [root_of_scan h, FileTree.canonical, hlocate, Path.isBeneath, Path.components_ofNames,
    Path.components_ofNames, List.isPrefixOf_iff_prefix]
  simp

/-- Known files that are the same path are equal paths. -/
theorem eq_of_same_of_mem_modulePaths (h : scan tree extension root = .ok w) {p q : Path}
    (hp : p ∈ w.modulePaths) (hq : q ∈ w.modulePaths) (hsame : p.same q = true) : p = q := by
  obtain ⟨names, below, contents, -, rfl, -⟩ := (mem_modulePaths_of_scan h).1 hp
  obtain ⟨names', below', contents', -, rfl, -⟩ := (mem_modulePaths_of_scan h).1 hq
  rw [Path.same_ofNames.1 hsame]

end Workspace

end SymbolAtlas
