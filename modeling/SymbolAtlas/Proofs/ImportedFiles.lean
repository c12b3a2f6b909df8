import SymbolAtlas.Proofs.JoinedPaths
import SymbolAtlas.Proofs.PackageText
import SymbolAtlas.Proofs.ScanOrder
import SymbolAtlas.Proofs.SpreadExact

/-!
# Imported files and scanned files

An import leads to a file whose name is written down from a segment, a dot and the extension,
and a scan lists the files whose name ends in the extension when it is taken apart at its last
dot.  Both mean the same files as long as the extension has no dot in it.  With an extension such
as `d.ol` modules are imported from their files, but a scan finds none of them.

## Main Statements

* `isStep_moduleName`: the file name of a module is a segment that leads down.
* `nameExtension?_moduleName`: when the name of a module has the extension.
* `extension?_of_resolvePackage?`: the extension of an imported file.
* `scan_lists_imports`: when a scan lists the files that are imported.
-/

namespace SymbolAtlas

variable {tree : FileTree}

/-! ## Names of module files -/

theorem notMem_of_isIdentifier {word : List Char} (h : IsIdentifier word) {c : Char}
    (hc : isWordChar c = false) : c ∉ word := by
  intro hmem
  rw [h.forall_isWordChar c hmem] at hc
  cases hc

theorem exists_head?_of_isIdentifier {word : String} (h : IsIdentifier word.toList) :
    ∃ c, word.toList.head? = some c ∧ isWordChar c = true := by
  obtain ⟨c, chars, hchars⟩ := List.exists_cons_of_ne_nil h.ne_nil
  refine ⟨c, by rw [hchars, List.head?_cons], h.forall_isWordChar c ?_⟩
  rw [hchars]
  exact List.mem_cons_self

theorem isStep_of_isIdentifier {segment : String} (h : IsIdentifier segment.toList) :
    Path.IsStep segment := by
  obtain ⟨c, hhead, hc⟩ := exists_head?_of_isIdentifier h
  refine Path.isStep_of_head? hhead ?_ (notMem_of_isIdentifier h (by decide))
  rintro rfl
  exact absurd hc (by decide)

/-- The file name of a module is a segment that leads down. -/
theorem isStep_moduleName {last extension : String} (hlast : IsIdentifier last.toList)
    (hslash : '/' ∉ extension.toList) : Path.IsStep (last ++ "." ++ extension) :=
  (isStep_of_isIdentifier hlast).append_extension hslash

/-- The name of a module has the extension exactly when there is no dot in the extension. -/
theorem nameExtension?_moduleName {last : String} (hlast : last ≠ "") (extension : String) :
    Path.nameExtension? (last ++ "." ++ extension) = some extension ↔ '.' ∉ extension.toList := by
  rw [Path.nameExtension?, Option.map_eq_some_iff]
  constructor
  · rintro ⟨⟨stem, rest⟩, hcut, rfl⟩
    exact (Path.cutExtension?_eq_some_iff.1 hcut).2.2
  · intro hdot
    exact ⟨(last, extension), Path.cutExtension?_eq_some_iff.2 ⟨rfl, hlast, hdot⟩, rfl⟩

/-! ## Imported files -/

/-- The last segment of a package names the file, whichever folder the package starts from. -/
theorem moduleFile?_cases (package : PackagePath) (extension : String) :
    (∀ base, moduleFile? base package extension = none) ∨
      ∃ last, package.segments.getLast? = some last ∧ last ≠ "" ∧
        ∀ base, moduleFile? base package extension =
          some ((joinSegments base package.segments.dropLast).join (last ++ "." ++ extension)) := by
  unfold moduleFile?
  cases hlast : package.segments.getLast? with
  | none => exact .inl fun base => rfl
  | some last =>
    by_cases hempty : last = ""
    · exact .inl fun base => by simp [hempty]
    · exact .inr ⟨last, rfl, hempty, fun base => by simp [hempty]⟩

/-- An import leads to a file that is called after a segment of the package. -/
theorem exists_join_of_resolvePackage? {folder target : Path} {package : PackagePath}
    {searchFolders : List Path} {extension : String}
    (h : resolvePackage? tree folder package searchFolders extension = some target) :
    ∃ base : Path, ∃ last ∈ package.segments, last ≠ "" ∧
      target = base.join (last ++ "." ++ extension) := by
  have hmodule : ∃ base, moduleFile? base package extension = some target := by
    unfold resolvePackage? at h
    split at h
    · split at h
      · cases h
      · next base _ => exact ⟨base, (Option.filter_eq_some_iff.1 h).1⟩
    · obtain ⟨base, -, hbase⟩ := List.mem_filterMap.1 (List.mem_of_find?_eq_some h)
      exact ⟨base, hbase⟩
  obtain ⟨base, hbase⟩ := hmodule
  rcases moduleFile?_cases package extension with hnone | ⟨last, hlast, hne, hsome⟩
  · rw [hnone] at hbase
    cases hbase
  · rw [hsome] at hbase
    exact ⟨_, last, List.mem_of_getLast? hlast, hne, (Option.some.inj hbase).symm⟩

/-- An imported file has the extension exactly when there is no dot in the extension. -/
theorem extension?_of_resolvePackage? {folder target : Path} {package : PackagePath}
    {searchFolders : List Path} {extension : String} (hslash : '/' ∉ extension.toList)
    (hidentifiers : ∀ segment ∈ package.segments, IsIdentifier segment.toList)
    (h : resolvePackage? tree folder package searchFolders extension = some target) :
    (tree.canonical target).extension? = some extension ↔ '.' ∉ extension.toList := by
  obtain ⟨base, last, hlast, hne, rfl⟩ := exists_join_of_resolvePackage? h
  obtain ⟨names, contents, hlocate, -⟩ :=
    FileTree.exists_locate_of_isFile (isFile_of_resolvePackage? h)
  have hstep := isStep_moduleName (hidentifiers last hlast) hslash
  obtain ⟨front, name, -, rfl, hname⟩ := FileTree.exists_name_of_locate_join hstep hlocate
  rw [FileTree.canonical, hlocate]
  dsimp only
  rw [Path.extension?_ofNames, List.getLast?_concat, Option.bind_some, hname]
  exact nameExtension?_moduleName hne extension

theorem mem_modulePaths_of_resolvePackage? {extension : String} {root : Path} {w : Workspace}
    (hscan : Workspace.scan tree extension root = .ok w) (hslash : '/' ∉ extension.toList)
    {folder target : Path} {package : PackagePath} {searchFolders : List Path}
    (hidentifiers : ∀ segment ∈ package.segments, IsIdentifier segment.toList)
    (h : resolvePackage? tree folder package searchFolders extension = some target)
    (hbeneath : (tree.canonical target).isBeneath w.root = true) :
    tree.canonical target ∈ w.modulePaths ↔ '.' ∉ extension.toList := by
  obtain ⟨names, contents, hnames, hat⟩ :=
    FileTree.exists_names_of_isFile (isFile_of_resolvePackage? h)
  have hplace := FileTree.canonical_and_isFile_iff.2 ⟨names, contents, hnames, hat⟩
  rw [Workspace.modulePaths_of_scan hscan, Workspace.mem_paths_of_scan hscan,
    and_iff_right hplace.1, and_iff_right hplace.2, and_iff_right hbeneath]
  exact extension?_of_resolvePackage? hslash hidentifiers h

/-- What a module imports is taken from the file that one of its import statements leads to. -/
theorem Linked.exists_statement {config : Config} {m : Module} (h : Linked config tree m)
    {s : ImportedSymbol} (hs : s ∈ m.table.imported) :
    ∃ outline, Outline.parse m.source = .ok outline ∧ ∃ statement ∈ outline.imports, ∃ target,
      resolvePackage? tree m.path.parent statement.package config.searchFolders
        config.extension = some target ∧ s.source.module = tree.canonical target := by
  cases h with
  | intro links _ =>
    obtain ⟨outline, hparse, hresolves, hlinks⟩ := links
    obtain ⟨pair, hpair, item, -, symbol, -, rfl⟩ := hlinks.exists_item hs
    obtain ⟨target, htarget, hpath⟩ := (List.forall₂_zip hresolves hpair).target
    exact ⟨outline, hparse, pair.1, (List.of_mem_zip hpair).1, target, htarget, hpath⟩

/-- The files beneath the root to which import statements lead are listed by the scan exactly
when the extension has no dot in it.  This goes for what compiled modules import, and then an
index that has such a module finds its imports under the paths that the scan lists. -/
theorem scan_lists_imports (config : Config) (tree : FileTree) (root : Path) (w : Workspace)
    (hscan : Workspace.scan tree config.extension root = .ok w)
    (hslash : '/' ∉ config.extension.toList) :
    (∀ text outline, Outline.parse text = .ok outline → ∀ statement ∈ outline.imports,
      ∀ folder target, resolvePackage? tree folder statement.package config.searchFolders
        config.extension = some target →
      (tree.canonical target).isBeneath w.root = true →
      (tree.canonical target ∈ w.modulePaths ↔ '.' ∉ config.extension.toList)) ∧
    ∀ file buffer m, config.compileModule tree file buffer = .ok m →
      ∀ s ∈ m.table.imported, s.source.module.isBeneath w.root = true →
      (s.source.module ∈ w.modulePaths ↔ '.' ∉ config.extension.toList) ∧
      ('.' ∉ config.extension.toList → ∀ modules, m ∈ (ImportIndex.ofModules modules).modules →
        ∃ p ∈ w.modulePaths,
          s.importer m.path ∈ (ImportIndex.ofModules modules).importersOf ⟨p, s.source.name⟩) := by
  have hstatements : ∀ text outline, Outline.parse text = .ok outline →
      ∀ statement ∈ outline.imports, ∀ folder target,
      resolvePackage? tree folder statement.package config.searchFolders
        config.extension = some target →
      (tree.canonical target).isBeneath w.root = true →
      (tree.canonical target ∈ w.modulePaths ↔ '.' ∉ config.extension.toList) := by
    intro text outline hparse statement hstatement folder target htarget hbeneath
    exact mem_modulePaths_of_resolvePackage? hscan hslash
      (fun segment => isIdentifier_of_mem_segments hparse hstatement) htarget hbeneath
  refine ⟨hstatements, fun file buffer m hm s hs hbeneath => ?_⟩
  obtain ⟨-, hlinked, -⟩ := linked_of_compileModule hm
  obtain ⟨outline, hparse, statement, hstatement, target, htarget, hsource⟩ :=
    hlinked.exists_statement hs
  have hlisted : s.source.module ∈ w.modulePaths ↔ '.' ∉ config.extension.toList := by
    rw [hsource] at hbeneath ⊢
    exact hstatements m.source outline hparse statement hstatement _ target htarget hbeneath
  refine ⟨hlisted, fun hdot modules hindexed => ⟨s.source.module, hlisted.2 hdot, ?_⟩⟩
  rw [(ImportIndex.consistent_ofModules modules).mem_importersOf_iff]
  exact ⟨m, hindexed, s, hs, Binding.same_refl _, rfl⟩

/-- Modules whose files end in a given extension. -/
def pairConfig (extension : String) : Config := { Config.default with extension := extension }

/-- A file with a declaration, and one that imports it. -/
def pairTree (extension : String) : FileTree :=
  ((FileTree.bare ⟨"/w"⟩).write ⟨"/w/a." ++ extension⟩ (.text "type Shape")).write
    ⟨"/w/b." ++ extension⟩ (.text "from .a import Shape")

/-- What is imported. -/
def pairSymbol (extension : String) : ImportedSymbol :=
  ⟨"Shape", ⟨0, 15, 20⟩, ⟨⟨"/w/a." ++ extension⟩, "Shape", ⟨0, 15, 20⟩⟩,
    ⟨⟨"/w/a." ++ extension⟩, "Shape", .type, ⟨0, 5, 10⟩⟩, false⟩

/-- The importing module, compiled. -/
def pairImporter (extension : String) : Module :=
  { path := ⟨"/w/b." ++ extension⟩
    source := "from .a import Shape"
    table := ⟨⟨"/w/b." ++ extension⟩, [], [pairSymbol extension], [("Shape", [⟨0, 15, 20⟩])]⟩ }

/-- The imported file is listed, and the import is found under its path. -/
theorem scan_lists_imports_pair :
    Workspace.scan (pairTree "ol") "ol" ⟨"/w"⟩ =
        .ok ⟨⟨"/w"⟩, .insertAll .empty [⟨"/w/a.ol"⟩, ⟨"/w/b.ol"⟩]⟩ ∧
      (pairConfig "ol").compileModule (pairTree "ol") ⟨"/w/b.ol"⟩ none =
        .ok (pairImporter "ol") ∧
      ∃ p ∈ [Path.mk "/w/a.ol", ⟨"/w/b.ol"⟩],
        (pairSymbol "ol").importer ⟨"/w/b.ol"⟩ ∈
          (ImportIndex.ofModules [pairImporter "ol"]).importersOf ⟨p, "Shape"⟩ := by
  have hscan : Workspace.scan (pairTree "ol") "ol" ⟨"/w"⟩ =
      .ok ⟨⟨"/w"⟩, .insertAll .empty [⟨"/w/a.ol"⟩, ⟨"/w/b.ol"⟩]⟩ :=
    eq_ok_of_toOption (by decide +kernel)
  have hcompiled : (pairConfig "ol").compileModule (pairTree "ol") ⟨"/w/b.ol"⟩ none =
      .ok (pairImporter "ol") :=
    eq_ok_of_toOption (by decide +kernel)
  obtain ⟨-, himported⟩ :=
    scan_lists_imports (pairConfig "ol") (pairTree "ol") ⟨"/w"⟩ _ hscan (by decide)
  obtain ⟨-, hfound⟩ :=
    himported _ none _ hcompiled (pairSymbol "ol") List.mem_cons_self (by decide +kernel)
  exact ⟨hscan, hcompiled, hfound (by decide) [pairImporter "ol"] List.mem_cons_self⟩

/-- Not every file beneath the root from which a module imports is listed by the scan. -/
theorem scan_misses_imports :
    ¬ ∀ (config : Config) (tree : FileTree) (root : Path) (w : Workspace) (file : Path)
        (buffer : Option String) (m : Module),
      Workspace.scan tree config.extension root = .ok w → '/' ∉ config.extension.toList →
      config.compileModule tree file buffer = .ok m →
      ∀ s ∈ m.table.imported, s.source.module.isBeneath w.root = true →
        s.source.module ∈ w.modulePaths := by
  intro hlisted
  have hscan : Workspace.scan (pairTree "d.ol") "d.ol" ⟨"/w"⟩ = .ok ⟨⟨"/w"⟩, .empty⟩ :=
    eq_ok_of_toOption (by decide +kernel)
  have hcompiled : (pairConfig "d.ol").compileModule (pairTree "d.ol") ⟨"/w/b.d.ol"⟩ none =
      .ok (pairImporter "d.ol") :=
    eq_ok_of_toOption (by decide +kernel)
  have hmem := hlisted (pairConfig "d.ol") (pairTree "d.ol") ⟨"/w"⟩ _ ⟨"/w/b.d.ol"⟩ none _ hscan
    (by decide) hcompiled (pairSymbol "d.ol") List.mem_cons_self (by decide +kernel)
  exact absurd hmem (by decide)

end SymbolAtlas
