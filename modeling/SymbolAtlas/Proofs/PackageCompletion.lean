import SymbolAtlas.FileTree.Update
import SymbolAtlas.Proofs.JoinedPaths
import SymbolAtlas.Proofs.PackageText
import SymbolAtlas.Proofs.ScanOrder

/-!
# Completing package paths

A name is offered for a package path that is being typed because some entry of a folder has it.
The package path of that entry, which goes through the folder and ends in the name, always leads
to a module file or to a folder.  What is written when the name is taken is the text of this
path, and it is read as this path exactly when the name has no dot in it: a folder `v1.2` and a
module file `a.b.ol` are offered too, but there is no text that means them.

## Main Definitions

* `completedText`: what is written when a name is taken.
* `listedPackage`, `typedBeginning`: the package path of the folder whose entries are offered, and
  what is typed of their names.
* `packageLeads`: whether a package path leads to a module file or to a folder.

## Main Statements

* `packageLeads_child`: the package path of an entry that is offered leads to it.
* `mem_packageCandidates_iff`: all entries with such a path are offered.
* `completedText_eq_display`: what is written is the text of that path.
* `candidates_completable`: what is offered, and when it is read as what it stands for.
-/

namespace SymbolAtlas

/-! ## What is written and what it leads to -/

/-- A package path with one more segment. -/
def PackagePath.child (p : PackagePath) (name : String) : PackagePath :=
  ⟨p.dots, p.segments ++ [name]⟩

/-- A text with what stands behind its last dot replaced. -/
def replaceLastSegment (text name : String) : String :=
  String.ofList (text.toList.reverse.dropWhile (· ≠ '.')).reverse ++ name

section Definitions

variable (tree : FileTree) (source : Path) (packagesFolder : Option Path)

/-- Whether the segments of a package path lead to a folder, the last of them being typed
already. -/
def namesFolder (package : PackagePath) : Bool :=
  package.segments.getLast?.getD "" ≠ "" &&
    (packageBase? tree source package packagesFolder).any fun base =>
      tree.isFolder (joinSegments base package.segments)

/-- What is written when a name is taken: it comes behind a folder and a dot, or takes the place
of the last segment. -/
def completedText (partialPath name : String) : String :=
  if namesFolder tree source packagesFolder (.parse partialPath) then partialPath ++ "." ++ name
  else replaceLastSegment partialPath name

/-- The package path of the folder whose entries are offered. -/
def listedPackage (package : PackagePath) : PackagePath :=
  if namesFolder tree source packagesFolder package then package
  else ⟨package.dots, package.segments.dropLast⟩

/-- What is typed already of the name that is offered. -/
def typedBeginning (package : PackagePath) : String :=
  if namesFolder tree source packagesFolder package then "" else package.segments.getLast?.getD ""

/-- Whether a package path leads to a module file or its segments lead to a folder. -/
def packageLeads (extension : String) (package : PackagePath) : Bool :=
  (packageModule? tree source package packagesFolder extension).isSome ||
    (packageBase? tree source package packagesFolder).any fun base =>
      tree.isFolder (joinSegments base package.segments)

end Definitions

variable {tree : FileTree} {source : Path} {packagesFolder : Option Path} {extension : String}

/-! ## Entries that are offered -/

/-- Where a package path starts depends on its dots only. -/
theorem packageBase?_congr {package other : PackagePath} (h : package.dots = other.dots) :
    packageBase? tree source package packagesFolder =
      packageBase? tree source other packagesFolder := by
  rw [packageBase?, packageBase?, PackagePath.isRelative, PackagePath.isRelative, h]

theorem dots_listedPackage (tree : FileTree) (source : Path) (packagesFolder : Option Path)
    (package : PackagePath) :
    (listedPackage tree source packagesFolder package).dots = package.dots := by
  unfold listedPackage
  split <;> rfl

theorem LinearlyOrders.mem_sorted {α : Type} {before : α → α → Bool} (h : LinearlyOrders before)
    {l : List α} {x : α} : x ∈ sorted before l ↔ x ∈ l := by
  refine ⟨mem_of_mem_sorted, fun hx => ?_⟩
  obtain ⟨y, hy, hxy, hyx⟩ := exists_mem_sorted h.irrefl hx
  rwa [h.eq_of_neither hxy hyx]

/-- The entry at a folder that is extended by one step is the child with that name. -/
theorem FileTree.entry?_join_eq_some_iff {folder : Path} {names : List EntryName}
    (hlocate : tree.locate folder = .ok names) {children : List (EntryName × Entry)}
    (hat : tree.at? names = some (.folder children)) {segment : String}
    (hstep : Path.IsStep segment) {child : Entry} :
    tree.entry? (folder.join segment) = some child ↔
      ∃ entry : EntryName, entry.text = segment ∧ children.lookup entry = some child := by
  constructor
  · intro h
    unfold entry? at h
    split at h
    · next found hfound =>
      obtain ⟨front, entry, hfront, rfl, htext⟩ := exists_name_of_locate_join hstep hfound
      obtain rfl := Except.ok.inj ((baseOf_of_locate hlocate).symm.trans hfront)
      refine ⟨entry, htext, ?_⟩
      rw [at?] at hat h
      rw [Entry.at?_append, hat, Option.bind_some, Entry.at?] at h
      cases hchild : children.lookup entry with
      | none => simp [hchild] at h
      | some other => simpa [hchild, Entry.at?_nil] using h
    · cases h
  · rintro ⟨entry, rfl, hchild⟩
    obtain ⟨hjoin, hplace⟩ := locate_join_child hlocate hat hchild
    simp only [hjoin, hplace, entry?]

theorem FileTree.isFile_iff {p : Path} :
    tree.isFile p = true ↔ ∃ contents, tree.entry? p = some (.file contents) := by
  unfold isFile
  split
  · next contents h => simp [h]
  · next h => simpa using h

theorem FileTree.isFolder_iff {p : Path} :
    tree.isFolder p = true ↔ ∃ children, tree.entry? p = some (.folder children) := by
  unfold isFolder
  split
  · next children h => simp [h]
  · next h => simpa using h

/-- A file is offered by its name without the extension, a folder by its whole name. -/
theorem candidateName?_eq_some_iff {entry : EntryName} {child : Entry} {name : String} :
    candidateName? extension (entry, child) = some name ↔
      ((∃ contents, child = .file contents) ∧ entry.text = name ++ "." ++ extension ∧
          name ≠ "" ∧ '.' ∉ extension.toList) ∨
        (∃ inner, child = .folder inner) ∧ entry.text = name := by
  cases child with
  | folder inner => simp [candidateName?]
  | file contents =>
    have hcut : candidateName? extension (entry, .file contents) = some name ↔
        Path.cutExtension? entry.text = some (name, extension) := by
      cases hcut : Path.cutExtension? entry.text with
      | none => simp [candidateName?, Path.nameExtension?, hcut]
      | some cut => simp [candidateName?, Path.nameExtension?, Path.nameStem, hcut, Prod.ext_iff,
          and_comm]
    rw [hcut, Path.cutExtension?_eq_some_iff]
    simp

/-- The names that are offered from a folder are those of the folders in it and of its module
files. -/
theorem mem_candidatesIn_iff {folder : Path} {names : List EntryName}
    (hlocate : tree.locate folder = .ok names) {children : List (EntryName × Entry)}
    (hat : tree.at? names = some (.folder children)) {beginning name : String} :
    name ∈ candidatesIn tree folder beginning extension ↔
      beginning.toList <+: name.toList ∧ ∃ entry child, children.lookup entry = some child ∧
        candidateName? extension (entry, child) = some name := by
  have hchildren : tree.children? folder = some (byName children) := by
    simp only [FileTree.children?, FileTree.entry?, hlocate, hat]
  unfold candidatesIn
  rw [hchildren]
  dsimp only
  rw [linearlyOrders_nameBefore.mem_sorted, List.mem_filter, List.mem_filterMap,
    List.isPrefixOf_iff_prefix, and_comm]
  refine and_congr_right fun _ => ⟨?_, ?_⟩
  · rintro ⟨⟨entry, child⟩, hlisted, hname⟩
    exact ⟨entry, child, mem_byName.1 hlisted, hname⟩
  · rintro ⟨entry, child, hchild, hname⟩
    exact ⟨(entry, child), mem_byName.2 hchild, hname⟩

/-- A name that is offered from a folder is that of a folder in it, or of a module file. -/
theorem exists_entry_of_mem_candidatesIn {folder : Path} {beginning name : String}
    (h : name ∈ candidatesIn tree folder beginning extension) :
    name ≠ "" ∧ (tree.isFile (folder.join (name ++ "." ++ extension)) = true ∨
      tree.isFolder (folder.join name) = true) := by
  have hfolder : tree.isFolder folder = true := by
    unfold candidatesIn FileTree.children? at h
    unfold FileTree.isFolder
    split at h
    · cases h
    · next hchildren =>
      split at hchildren
      · rfl
      · cases hchildren
  obtain ⟨names, children, hlocate, hat⟩ := FileTree.exists_names_of_isFolder hfolder
  obtain ⟨-, entry, child, hchild, hname⟩ := (mem_candidatesIn_iff hlocate hat).1 h
  have hentry : tree.entry? (folder.join entry.text) = some child :=
    (FileTree.entry?_join_eq_some_iff hlocate hat (Path.isStep_entryName entry)).2
      ⟨entry, rfl, hchild⟩
  rcases candidateName?_eq_some_iff.1 hname with
    ⟨⟨contents, rfl⟩, htext, hne, -⟩ | ⟨⟨inner, rfl⟩, htext⟩
  · rw [htext] at hentry
    exact ⟨hne, .inl (FileTree.isFile_iff.2 ⟨contents, hentry⟩)⟩
  · rw [← htext]
    exact ⟨entry.isEntryName.1, .inr (FileTree.isFolder_iff.2 ⟨inner, hentry⟩)⟩

/-- Whatever a folder or a module file is called, it is offered. -/
theorem mem_candidatesIn {folder : Path} (hfolder : tree.isFolder folder = true)
    (hslash : '/' ∉ extension.toList) (hdot : '.' ∉ extension.toList) {beginning name : String}
    (hstep : Path.IsStep name) (hbeginning : beginning.toList <+: name.toList)
    (h : tree.isFile (folder.join (name ++ "." ++ extension)) = true ∨
      tree.isFolder (folder.join name) = true) :
    name ∈ candidatesIn tree folder beginning extension := by
  obtain ⟨names, children, hlocate, hat⟩ := FileTree.exists_names_of_isFolder hfolder
  refine (mem_candidatesIn_iff hlocate hat).2 ⟨hbeginning, ?_⟩
  rcases h with hfile | hinner
  · obtain ⟨contents, hentry⟩ := FileTree.isFile_iff.1 hfile
    obtain ⟨entry, htext, hchild⟩ := (FileTree.entry?_join_eq_some_iff hlocate hat
      (hstep.append_extension hslash)).1 hentry
    exact ⟨entry, _, hchild, candidateName?_eq_some_iff.2
      (.inl ⟨⟨contents, rfl⟩, htext, hstep.ne_empty, hdot⟩)⟩
  · obtain ⟨inner, hentry⟩ := FileTree.isFolder_iff.1 hinner
    obtain ⟨entry, htext, hchild⟩ :=
      (FileTree.entry?_join_eq_some_iff hlocate hat hstep).1 hentry
    exact ⟨entry, _, hchild, candidateName?_eq_some_iff.2 (.inr ⟨⟨inner, rfl⟩, htext⟩)⟩

theorem segments_eq_concat {segments : List String} (h : segments.getLast?.getD "" ≠ "") :
    segments = segments.dropLast ++ [segments.getLast?.getD ""] := by
  cases hlast : segments.getLast? with
  | none => simp [hlast] at h
  | some last =>
    obtain ⟨front, rfl⟩ := List.getLast?_eq_some_iff.1 hlast
    simp

/-- What is offered are the names from the listed folder that begin with what is typed of the
last segment. -/
theorem packageCandidates_eq {partialPath : String} {base : Path}
    (hbase : packageBase? tree source (.parse partialPath) packagesFolder = some base) :
    packageCandidates tree source partialPath packagesFolder extension =
      candidatesIn tree
        (joinSegments base (listedPackage tree source packagesFolder (.parse partialPath)).segments)
        (typedBeginning tree source packagesFolder (.parse partialPath)) extension := by
  unfold packageCandidates listedPackage typedBeginning namesFolder
  dsimp only
  generalize PackagePath.parse partialPath = package at *
  rw [hbase, Option.any_some]
  by_cases hlast : package.segments.getLast?.getD "" = ""
  · simp [hlast]
  · have hjoin := joinSegments_concat base package.segments.dropLast
      (package.segments.getLast?.getD "")
    rw [← segments_eq_concat hlast] at hjoin
    dsimp only
    rw [← hjoin]
    split <;> rfl

theorem exists_base_of_mem_packageCandidates {partialPath name : String}
    (h : name ∈ packageCandidates tree source partialPath packagesFolder extension) :
    ∃ base, packageBase? tree source (.parse partialPath) packagesFolder = some base := by
  cases hbase : packageBase? tree source (.parse partialPath) packagesFolder with
  | none => simp [packageCandidates, hbase] at h
  | some base => exact ⟨base, rfl⟩

/-- What the package path of an entry of the listed folder leads to. -/
theorem packageLeads_child_iff {package : PackagePath} {base : Path}
    (hbase : packageBase? tree source package packagesFolder = some base) {name : String}
    (hname : name ≠ "") :
    packageLeads tree source packagesFolder extension (package.child name) = true ↔
      tree.isFile ((joinSegments base package.segments).join (name ++ "." ++ extension)) = true ∨
        tree.isFolder ((joinSegments base package.segments).join name) = true := by
  have hchild : packageBase? tree source (package.child name) packagesFolder = some base :=
    (packageBase?_congr rfl).trans hbase
  have hmodule : moduleFile? base (package.child name) extension =
      some ((joinSegments base package.segments).join (name ++ "." ++ extension)) := by
    simp [moduleFile?, PackagePath.child, hname]
  have hsegments : joinSegments base (package.child name).segments =
      (joinSegments base package.segments).join name :=
    joinSegments_concat base package.segments name
  rw [packageLeads, packageModule?, hchild, Bool.or_eq_true, Option.any_some, hsegments]
  dsimp only
  rw [hmodule, Option.filter_some]
  refine or_congr_left ?_
  split <;> simp_all

/-- Where the listed folder is. -/
theorem packageBase?_listedPackage {partialPath : String} {base : Path}
    (hbase : packageBase? tree source (.parse partialPath) packagesFolder = some base) :
    packageBase? tree source (listedPackage tree source packagesFolder (.parse partialPath))
      packagesFolder = some base :=
  (packageBase?_congr (dots_listedPackage tree source packagesFolder _)).trans hbase

/-- The package path of an entry that is offered leads to it. -/
theorem packageLeads_child {partialPath name : String}
    (h : name ∈ packageCandidates tree source partialPath packagesFolder extension) :
    name ≠ "" ∧ packageLeads tree source packagesFolder extension
      ((listedPackage tree source packagesFolder (.parse partialPath)).child name) = true := by
  obtain ⟨base, hbase⟩ := exists_base_of_mem_packageCandidates h
  rw [packageCandidates_eq hbase] at h
  obtain ⟨hne, hentry⟩ := exists_entry_of_mem_candidatesIn h
  exact ⟨hne, (packageLeads_child_iff (packageBase?_listedPackage hbase) hne).2 hentry⟩

/-- What is offered begins with what is typed. -/
theorem begins_of_mem_packageCandidates {partialPath name : String}
    (h : name ∈ packageCandidates tree source partialPath packagesFolder extension) :
    (typedBeginning tree source packagesFolder (.parse partialPath)).toList <+: name.toList := by
  obtain ⟨base, hbase⟩ := exists_base_of_mem_packageCandidates h
  rw [packageCandidates_eq hbase, candidatesIn] at h
  split at h
  · cases h
  · exact List.isPrefixOf_iff_prefix.1 (List.mem_filter.1 (mem_of_mem_sorted h)).2

/-- All entries of the listed folder are offered that begin with what is typed and whose package
paths lead somewhere. -/
theorem mem_packageCandidates_iff {partialPath : String} {base : Path}
    (hbase : packageBase? tree source (.parse partialPath) packagesFolder = some base)
    (hfolder : tree.isFolder (joinSegments base
      (listedPackage tree source packagesFolder (.parse partialPath)).segments) = true)
    (hslash : '/' ∉ extension.toList) (hdot : '.' ∉ extension.toList) {name : String}
    (hstep : Path.IsStep name) :
    name ∈ packageCandidates tree source partialPath packagesFolder extension ↔
      (typedBeginning tree source packagesFolder (.parse partialPath)).toList <+: name.toList ∧
        packageLeads tree source packagesFolder extension
          ((listedPackage tree source packagesFolder (.parse partialPath)).child name) = true := by
  constructor
  · exact fun h => ⟨begins_of_mem_packageCandidates h, (packageLeads_child h).2⟩
  · rintro ⟨hbeginning, hleads⟩
    rw [packageLeads_child_iff (packageBase?_listedPackage hbase) hstep.ne_empty] at hleads
    rw [packageCandidates_eq hbase]
    exact mem_candidatesIn hfolder hslash hdot hstep hbeginning hleads

/-! ## The text of a package path -/

theorem joinPieces_concat {separator : Char} {pieces : List (List Char)} (h : pieces ≠ [])
    (piece : List Char) :
    joinPieces separator (pieces ++ [piece]) =
      joinPieces separator pieces ++ separator :: piece := by
  induction pieces with
  | nil => exact absurd rfl h
  | cons first pieces ih =>
    cases pieces with
    | nil => rfl
    | cons second pieces =>
      rw [List.cons_append, joinPieces_cons (by simp), joinPieces_cons (by simp), ih (by simp)]
      simp

/-- The text of a package path with one more segment. -/
theorem PackagePath.toList_display_child (p : PackagePath) (name : String) :
    (p.child name).display.toList =
      if p.segments = [] then List.replicate p.dots '.' ++ name.toList
      else p.display.toList ++ '.' :: name.toList := by
  rw [display, display, child, joinNames, joinNames, List.map_append]
  split
  · next hnil => simp [hnil, joinPieces]
  · next hne => simp [joinPieces_concat (show p.segments.map String.toList ≠ [] by simpa using hne)]

/-- Replacing the last segment leaves what is in front of it. -/
theorem replaceLastSegment_eq {text name : String} {front last : List Char}
    (htext : text.toList = front ++ last) (hlast : '.' ∉ last)
    (hfront : front = [] ∨ front.getLast? = some '.') :
    (replaceLastSegment text name).toList = front ++ name.toList := by
  have hpass : ∀ c ∈ last.reverse, decide (c ≠ '.') = true := by
    intro c hc
    rw [decide_eq_true_eq]
    rintro rfl
    exact hlast (List.mem_reverse.1 hc)
  have hstop : front.reverse.dropWhile (· ≠ '.') = front.reverse := by
    rcases hfront with rfl | hdot
    · rfl
    · obtain ⟨rest, rfl⟩ := List.getLast?_eq_some_iff.1 hdot
      simp
  rw [replaceLastSegment, htext, List.reverse_append, List.dropWhile_append_of_pos hpass, hstop]
  simp

/-- A package path that is read is written out again by its dots and segments. -/
theorem toList_of_parse (text : String) :
    text.toList = List.replicate (PackagePath.parse text).dots '.' ++
      joinPieces '.' ((PackagePath.parse text).segments.map String.toList) := by
  conv_lhs => rw [← PackagePath.display_parse text]
  simp [PackagePath.display, joinNames]

/-- The text with another last segment is that of the package path with another last segment. -/
theorem replaceLastSegment_eq_display (text name : String) :
    replaceLastSegment text name =
      (PackagePath.child ⟨(PackagePath.parse text).dots,
        (PackagePath.parse text).segments.dropLast⟩ name).display := by
  have htext := toList_of_parse text
  have hundotted := (PackagePath.wellFormed_parse text).undotted
  generalize PackagePath.parse text = package at *
  obtain ⟨dots, segments⟩ := package
  dsimp only at *
  have hdots : List.replicate dots '.' = [] ∨ (List.replicate dots '.').getLast? = some '.' := by
    cases dots with
    | zero => exact .inl rfl
    | succ dots => exact .inr (by simp [List.getLast?_replicate])
  rw [← String.toList_inj, PackagePath.toList_display_child]
  cases segments using List.reverseRecOn with
  | nil =>
    rw [List.map_nil, joinPieces] at htext
    exact replaceLastSegment_eq htext List.not_mem_nil hdots
  | append_singleton front last =>
    have hlast : '.' ∉ last.toList := hundotted last (by simp)
    rw [List.dropLast_concat]
    by_cases hfront : front = []
    · rw [hfront] at htext ⊢
      exact replaceLastSegment_eq htext hlast hdots
    · rw [List.map_append, List.map_singleton, joinPieces_concat (by simpa using hfront)] at htext
      have hsplit : text.toList = ((PackagePath.mk dots front).display.toList ++ ['.']) ++
          last.toList := by
        rw [htext, PackagePath.display, joinNames]
        simp
      rw [if_neg hfront, replaceLastSegment_eq hsplit hlast (.inr (by simp))]
      simp

/-- What is written when a name is taken is the text of the package path of its entry. -/
theorem completedText_eq_display (tree : FileTree) (source : Path) (packagesFolder : Option Path)
    (partialPath name : String) :
    completedText tree source packagesFolder partialPath name =
      ((listedPackage tree source packagesFolder (.parse partialPath)).child name).display := by
  unfold completedText listedPackage
  split
  · next hnames =>
    have hne : (PackagePath.parse partialPath).segments ≠ [] := by
      intro hnil
      simp [namesFolder, hnil] at hnames
    rw [← String.toList_inj, PackagePath.toList_display_child, if_neg hne,
      PackagePath.display_parse]
    simp
  · exact replaceLastSegment_eq_display partialPath name

/-- The package path of an entry has a text exactly when the name of the entry has no dot. -/
theorem wellFormed_child_iff {partialPath name : String} (hname : name ≠ "") :
    ((listedPackage tree source packagesFolder (.parse partialPath)).child name).WellFormed ↔
      '.' ∉ name.toList := by
  have hparse := PackagePath.wellFormed_parse partialPath
  have hlisted : (listedPackage tree source packagesFolder (.parse partialPath)).segments <+:
      (PackagePath.parse partialPath).segments := by
    unfold listedPackage
    split
    · exact List.prefix_rfl
    · exact List.dropLast_prefix _
  generalize (listedPackage tree source packagesFolder (.parse partialPath)) = listed at *
  refine ⟨fun h => h.undotted name (by simp [PackagePath.child]), fun hdot => ⟨?_, ?_⟩⟩
  · intro segment hsegment
    rcases List.mem_append.1 hsegment with hold | hnew
    · exact hparse.undotted segment (hlisted.subset hold)
    · rwa [List.mem_singleton.1 hnew]
  · obtain ⟨dots, segments⟩ := listed
    cases segments with
    | nil => simpa [PackagePath.child] using hname
    | cons first others =>
      obtain ⟨rest, hrest⟩ := hlisted
      have hfirst := hparse.first
      rw [← hrest] at hfirst
      simpa [PackagePath.child] using hfirst

/-! ## What is offered -/

theorem pairwise_packageCandidates (tree : FileTree) (source : Path) (partialPath : String)
    (packagesFolder : Option Path) (extension : String) :
    (packageCandidates tree source partialPath packagesFolder extension).Pairwise
      (nameBefore · · = true) := by
  have htrans : ∀ a b c : String, nameBefore a b = true → nameBefore b c = true →
      nameBefore a c = true :=
    fun _ _ _ => linearlyOrders_nameBefore.trans
  cases hbase : packageBase? tree source (.parse partialPath) packagesFolder with
  | none => simp [packageCandidates, hbase]
  | some base =>
    rw [packageCandidates_eq hbase, candidatesIn]
    split
    · exact .nil
    · exact pairwise_sorted htrans _

/-- The names that are offered for a package path are in order and different from each other.
The package path of each entry that is offered leads somewhere, and what is written when its name
is taken is read as this path exactly when the name has no dot in it; then it leads somewhere.
Every entry is offered that begins with what is typed and has such a path, when the folder is
there to be listed and the extension is one that file names have. -/
theorem candidates_completable (tree : FileTree) (source : Path) (partialPath : String)
    (packagesFolder : Option Path) (extension : String) :
    (packageCandidates tree source partialPath packagesFolder extension).Pairwise
        (nameBefore · · = true) ∧
      (packageCandidates tree source partialPath packagesFolder extension).Nodup ∧
      (∀ name ∈ packageCandidates tree source partialPath packagesFolder extension,
        packageLeads tree source packagesFolder extension
          ((listedPackage tree source packagesFolder (.parse partialPath)).child name) = true ∧
        (PackagePath.parse (completedText tree source packagesFolder partialPath name) =
            (listedPackage tree source packagesFolder (.parse partialPath)).child name ↔
          '.' ∉ name.toList) ∧
        ('.' ∉ name.toList → packageLeads tree source packagesFolder extension
          (.parse (completedText tree source packagesFolder partialPath name)) = true)) ∧
      ∀ base, packageBase? tree source (.parse partialPath) packagesFolder = some base →
        tree.isFolder (joinSegments base
          (listedPackage tree source packagesFolder (.parse partialPath)).segments) = true →
        '/' ∉ extension.toList → '.' ∉ extension.toList → ∀ name, Path.IsStep name →
        (name ∈ packageCandidates tree source partialPath packagesFolder extension ↔
          (typedBeginning tree source packagesFolder (.parse partialPath)).toList <+:
            name.toList ∧
          packageLeads tree source packagesFolder extension
            ((listedPackage tree source packagesFolder (.parse partialPath)).child name) =
              true) := by
  have hordered := pairwise_packageCandidates tree source partialPath packagesFolder extension
  refine ⟨hordered, hordered.imp fun {a b} hbefore heq => ?_, fun name hname => ?_,
    fun base hbase hfolder hslash hdot name => mem_packageCandidates_iff hbase hfolder hslash hdot⟩
  · rw [heq, linearlyOrders_nameBefore.irrefl] at hbefore
    cases hbefore
  · obtain ⟨hne, hleads⟩ := packageLeads_child hname
    have hread : PackagePath.parse (completedText tree source packagesFolder partialPath name) =
        (listedPackage tree source packagesFolder (.parse partialPath)).child name ↔
        '.' ∉ name.toList := by
      rw [completedText_eq_display, ← wellFormed_child_iff hne]
      exact ⟨fun h => h ▸ PackagePath.wellFormed_parse _, PackagePath.parse_display⟩
    exact ⟨hleads, hread, fun hdot => by rwa [hread.2 hdot]⟩

/-- A folder whose name has a dot in it, next to two modules. -/
def dottedTree : FileTree :=
  (((FileTree.bare ⟨"/w"⟩).write ⟨"/w/main.ol"⟩ (.text "")).write ⟨"/w/v1.2/a.ol"⟩
    (.text "")).write ⟨"/w/lib/shapes.ol"⟩ (.text "")

/-- A module in a folder is offered, and its text leads to it. -/
theorem candidates_completable_folder :
    "shapes" ∈ packageCandidates dottedTree ⟨"/w/main.ol"⟩ ".lib" none "ol" ∧
      PackagePath.parse (completedText dottedTree ⟨"/w/main.ol"⟩ none ".lib" "shapes") =
        ⟨1, ["lib", "shapes"]⟩ ∧
      packageLeads dottedTree ⟨"/w/main.ol"⟩ none "ol"
        (.parse (completedText dottedTree ⟨"/w/main.ol"⟩ none ".lib" "shapes")) = true := by
  obtain ⟨-, -, htaken, hall⟩ := candidates_completable dottedTree ⟨"/w/main.ol"⟩ ".lib" none "ol"
  have hoffered : "shapes" ∈ packageCandidates dottedTree ⟨"/w/main.ol"⟩ ".lib" none "ol" :=
    (hall ⟨"/w"⟩ (by decide +kernel) (by decide +kernel) (by decide) (by decide) "shapes"
      ⟨by decide, by decide, by decide, by decide⟩).2 ⟨by decide +kernel, by decide +kernel⟩
  obtain ⟨-, hread, hleads⟩ := htaken "shapes" hoffered
  have hlisted : (listedPackage dottedTree ⟨"/w/main.ol"⟩ none (.parse ".lib")).child "shapes" =
      ⟨1, ["lib", "shapes"]⟩ := by
    decide +kernel
  exact ⟨hoffered, hlisted ▸ hread.2 (by decide), hleads (by decide)⟩

/-- Not everything that is offered leads somewhere when it is taken. -/
theorem packageCandidates_leads_nowhere :
    ¬ ∀ (tree : FileTree) (source : Path) (partialPath : String) (packagesFolder : Option Path)
        (extension : String),
      ∀ name ∈ packageCandidates tree source partialPath packagesFolder extension,
        packageLeads tree source packagesFolder extension
          (.parse (completedText tree source packagesFolder partialPath name)) = true := by
  intro hleads
  have hoffered : "v1.2" ∈ packageCandidates dottedTree ⟨"/w/main.ol"⟩ "." none "ol" := by
    decide +kernel
  have hnowhere : packageLeads dottedTree ⟨"/w/main.ol"⟩ none "ol"
      (.parse (completedText dottedTree ⟨"/w/main.ol"⟩ none "." "v1.2")) = false := by
    decide +kernel
  rw [hleads dottedTree ⟨"/w/main.ol"⟩ "." none "ol" "v1.2" hoffered] at hnowhere
  cases hnowhere

end SymbolAtlas
